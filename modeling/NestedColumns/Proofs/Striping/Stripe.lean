/-
One column at a time.

Shredding goes through a record once and writes to all columns in turn. `stripe` follows the path of
a single leaf instead. Both give the same rows for each column:

* `Field.rowsAt_visitsAll` — among the visits of a record, those of one leaf are its stripe;
* `Field.startsAt_visits` — the rows of a leaf for one value start at the level of the value, and
  every further one repeats something below it;
* `Field.fits_of_mem_visits` — every row of an admitted value fits the column of its leaf.
-/

import NestedColumns.Proofs.Schema.Sharing
import NestedColumns.Proofs.Striping.Visits

namespace NestedColumns

/-- The rows of one leaf for a value at the end of the path `above`; the second path leads from there
to the leaf. The first value of a field inherits the level of the instance it stands in, and every
further value has the level of the field. -/
def stripe (above : Path) : Path → Level → Value → List Row
  | [], level, value => [⟨some value, level, Path.definitionLevel above⟩]
  | label :: rest, level, .record record =>
    let here := above ++ [label]
    match record.getAll label.name with
    | [] => [⟨none, level, Path.definitionLevel here - 1⟩]
    | first :: more =>
      stripe here rest level first ++ more.flatMap (stripe here rest (Path.repetitionLevel here))
  | _ :: _, _, .scalar _ => []

namespace Field

/-! ### The leaves that are visited -/

theorem mem_leaves_of_mem_visitsOf {path : Path} {column : Nat} {level : Level} {field : Field}
    (each : ∀ {level value visit}, visit ∈ field.visits path column level value →
      visit.1 ∈ field.leaves path column) :
    ∀ {values : List Value} {visit : Visit}, visit ∈ field.visitsOf path column level values →
      visit.1 ∈ field.leaves path column
  | [], visit, member => by
    obtain ⟨leaf, below, rfl⟩ := List.mem_map.mp member
    exact below
  | first :: more, visit, member => by
    rcases List.mem_append.mp member with here | later
    · exact each here
    · obtain ⟨value, _, here⟩ := List.mem_flatMap.mp later
      exact each here

mutual

theorem mem_leaves_of_mem_visits {path : Path} {column : Nat} {level : Level} {visit : Visit} :
    ∀ {field : Field} {value : Value}, visit ∈ field.visits path column level value →
      visit.1 ∈ field.leaves path column
  | .leaf label type, value, member => by
    rw [visits, List.mem_singleton] at member
    rw [member]
    exact List.mem_singleton_self _
  | .group label children, .record record, member => by
    rw [visits] at member
    exact mem_leaves_of_mem_visitsAll member
  | .group label children, .scalar content, member => by
    rw [visits] at member
    cases member

/-- Only leaves below the given fields are visited. -/
theorem mem_leaves_of_mem_visitsAll {path : Path} {column : Nat} {level : Level} {visit : Visit} :
    ∀ {fields : List Field} {record : Record}, visit ∈ visitsAll path column level fields record →
      visit.1 ∈ leavesAll path column fields
  | [], record, member => by
    rw [visitsAll] at member
    cases member
  | field :: fields, record, member => by
    rw [visitsAll_cons, List.mem_append] at member
    rw [leavesAll_cons, List.mem_append]
    rcases member with here | later
    · exact .inl (mem_leaves_of_mem_visitsOf mem_leaves_of_mem_visits here)
    · exact .inr (mem_leaves_of_mem_visitsAll later)

end

/-! ### The rows of one leaf -/

theorem rowsAt_eq_nil {column : Nat} {visits : List Visit}
    (elsewhere : ∀ visit ∈ visits, visit.1.column ≠ column) : rowsAt column visits = [] := by
  unfold rowsAt
  rw [List.map_eq_nil_iff, List.filter_eq_nil_iff]
  intro visit member
  simpa using elsewhere visit member

theorem rowsAt_flatMap {column : Nat} (visits : Value → List Visit) (values : List Value) :
    rowsAt column (values.flatMap visits) = values.flatMap fun value => rowsAt column (visits value) := by
  simp [rowsAt, List.filter_flatMap, List.map_flatMap]

/-- A row for each of several leaves of different columns is one row for each of them. -/
theorem rowsAt_map {row : Row} {leaf : Node} : ∀ {leaves : List Node},
    (leaves.map (·.column)).Nodup → leaf ∈ leaves →
      rowsAt leaf.column (leaves.map fun leaf => (leaf, row)) = [row]
  | first :: leaves, distinct, member => by
    rw [List.map_cons, List.nodup_cons] at distinct
    rw [List.map_cons, ← List.singleton_append, rowsAt_append]
    rcases List.mem_cons.mp member with rfl | later
    · have others : rowsAt leaf.column (leaves.map fun leaf => (leaf, row)) = [] := by
        refine rowsAt_eq_nil fun visit among same => distinct.1 ?_
        obtain ⟨other, listed, rfl⟩ := List.mem_map.mp among
        exact List.mem_map.mpr ⟨other, listed, same⟩
      rw [others]
      simp [rowsAt]
    · have differ : first.column ≠ leaf.column := fun same =>
        distinct.1 (List.mem_map.mpr ⟨leaf, later, same.symm⟩)
      rw [rowsAt_map distinct.2 later]
      simp [rowsAt, differ]

/-- The rows of a leaf for the values of one field. -/
theorem rowsAt_visitsOf {path : Path} {column : Nat} {level : Level} {field : Field} {leaf : Node}
    (below : leaf ∈ field.leaves path column) : ∀ values : List Value,
      rowsAt leaf.column (field.visitsOf path column level values) =
        match values with
        | [] => [⟨none, level, Path.absentLevel path⟩]
        | first :: more => rowsAt leaf.column (field.visits path column level first) ++
            more.flatMap fun value =>
              rowsAt leaf.column (field.visits path column (Path.repetitionLevel path) value)
  | [] => by
    refine rowsAt_map ?_ below
    rw [map_column_leaves]
    exact List.nodup_range' 1
  | first :: more => by
    unfold visitsOf
    rw [rowsAt_append, rowsAt_flatMap]

/-- The leaves of a field and those of the fields after it have different columns. -/
theorem column_ne_of_mem_leaves {path path' : Path} {column : Nat} {field : Field}
    {fields : List Field} {leaf other : Node} (here : leaf ∈ field.leaves path column)
    (later : other ∈ leavesAll path' (column + field.leafCount) fields) :
    leaf.column ≠ other.column := by
  have inside := column_mem_range_of_mem_leaves here
  have beyond := List.mem_map_of_mem (f := (·.column)) later
  rw [map_column_leavesAll] at beyond
  have bounds := List.mem_range'_1.mp beyond
  omega

theorem rowsAt_visitsAll_of_mem {path : Path} {column : Nat} {level : Level} {field : Field}
    {fields : List Field} {record : Record} {leaf : Node}
    (here : leaf ∈ field.leaves (path ++ [field.label]) column) :
    rowsAt leaf.column (visitsAll path column level (field :: fields) record) =
      rowsAt leaf.column (field.visitsOf (path ++ [field.label]) column level
        (record.getAll field.label.name)) := by
  have others : rowsAt leaf.column
      (visitsAll path (column + field.leafCount) level fields record) = [] :=
    rowsAt_eq_nil fun visit among same =>
      column_ne_of_mem_leaves here (mem_leaves_of_mem_visitsAll among) same.symm
  rw [visitsAll_cons, rowsAt_append, others, List.append_nil]

theorem rowsAt_visitsAll_of_later {path : Path} {column : Nat} {level : Level} {field : Field}
    {fields : List Field} {record : Record} {leaf : Node}
    (later : leaf ∈ leavesAll path (column + field.leafCount) fields) :
    rowsAt leaf.column (visitsAll path column level (field :: fields) record) =
      rowsAt leaf.column (visitsAll path (column + field.leafCount) level fields record) := by
  have others : rowsAt leaf.column (field.visitsOf (path ++ [field.label]) column level
      (record.getAll field.label.name)) = [] := by
    refine rowsAt_eq_nil fun visit among same => ?_
    exact column_ne_of_mem_leaves (mem_leaves_of_mem_visitsOf mem_leaves_of_mem_visits among) later same
  rw [visitsAll_cons, rowsAt_append, others, List.nil_append]

mutual

theorem rowsAt_visits {path rest : Path} {column : Nat} {leaf : Node} (level : Level) :
    ∀ {field : Field} (value : Value), leaf ∈ field.leaves path column → leaf.path = path ++ rest →
      rowsAt leaf.column (field.visits path column level value) = stripe path rest level value
  | .leaf label type, value, below, ends => by
    rw [leaves_leaf, List.mem_singleton] at below
    subst below
    rw [List.self_eq_append_right.mp ends, visits, stripe]
    simp [rowsAt]
  | .group label children, .record record, below, ends => by
    rw [visits]
    exact rowsAt_visitsAll level record below ends
  | .group label children, .scalar content, below, ends => by
    obtain ⟨field, _, leads⟩ := path_isPrefix_of_mem_leavesAll below
    cases rest with
    | nil =>
      have lengths := leads.length_le
      rw [ends, List.append_nil, List.length_append, List.length_singleton] at lengths
      exact absurd lengths (Nat.not_succ_le_self _)
    | cons label rest => rw [visits, stripe, rowsAt_nil]

/-- **The rows of one leaf among the visits of a record are its stripe.** -/
theorem rowsAt_visitsAll {path rest : Path} {column : Nat} {leaf : Node} (level : Level) :
    ∀ {fields : List Field} (record : Record), leaf ∈ leavesAll path column fields →
      leaf.path = path ++ rest →
      rowsAt leaf.column (visitsAll path column level fields record) =
        stripe path rest level (.record record)
  | field :: fields, record, below, ends => by
    rw [leavesAll_cons, List.mem_append] at below
    rcases below with here | later
    · obtain ⟨rest', through⟩ := path_isPrefix_of_mem_leaves here
      rw [ends, List.append_assoc, List.append_cancel_left_eq] at through
      subst through
      have ends' : leaf.path = path ++ [field.label] ++ rest' := by
        rw [ends, List.append_assoc]
      have each : ∀ level value, rowsAt leaf.column
          (field.visits (path ++ [field.label]) column level value) =
            stripe (path ++ [field.label]) rest' level value :=
        fun level value => rowsAt_visits level value here ends'
      rw [rowsAt_visitsAll_of_mem here, rowsAt_visitsOf here, List.singleton_append, stripe]
      simp only [each]
      rfl
    · rw [rowsAt_visitsAll_of_later later]
      exact rowsAt_visitsAll level record later ends

end

end Field

/-! ### Rows fit their columns -/

/-- A row that the column of a leaf takes: it has a value of the type of the leaf exactly at the
greatest definition level. -/
structure Row.Fits (row : Row) (leaf : Node) : Prop where
  repetition_le : row.repetition ≤ leaf.maxRepetition
  value : (row.value = none ∧ row.definition < leaf.maxDefinition) ∨
    ∃ content, row.value = some (.scalar content) ∧ leaf.type? = some content.type ∧
      row.definition = leaf.maxDefinition

theorem Row.Fits.definition_le {row : Row} {leaf : Node} (fits : row.Fits leaf) :
    row.definition ≤ leaf.maxDefinition := by
  rcases fits.value with ⟨_, below⟩ | ⟨_, _, _, same⟩
  · exact Nat.le_of_lt below
  · exact Nat.le_of_eq same

theorem Path.absentLevel_of_mayBeAbsent (path : Path) {label : Label}
    (absent : label.cardinality.mayBeAbsent = true) :
    absentLevel (path ++ [label]) = definitionLevel path ∧
      definitionLevel (path ++ [label]) = definitionLevel path + 1 := by
  have one : definitionLevel [label] = 1 := by
    unfold definitionLevel
    rw [List.countP_singleton, if_pos absent]
  unfold absentLevel
  rw [definitionLevel_append, one]
  exact ⟨rfl, rfl⟩

/-- The row that stands for the absence of a field from a present parent fits every leaf at or below
the field. -/
theorem Row.fits_absence {path : Path} {label : Label} {column : Nat} {level : Level}
    {field : Field} {leaf : Node} (absent : label.cardinality.mayBeAbsent = true)
    (within : level ≤ Path.repetitionLevel path)
    (below : leaf ∈ field.leaves (path ++ [label]) column) :
    (Row.mk none level (Path.absentLevel (path ++ [label]))).Fits leaf := by
  have leads := Field.path_isPrefix_of_mem_leaves below
  obtain ⟨atParent, oneMore⟩ := Path.absentLevel_of_mayBeAbsent path absent
  have deeper := Path.definitionLevel_le_of_isPrefix leads
  have repeats := Path.repetitionLevel_le_of_isPrefix ((List.prefix_append path [label]).trans leads)
  refine ⟨Nat.le_trans within repeats, .inl ⟨rfl, ?_⟩⟩
  show Path.absentLevel (path ++ [label]) < Path.definitionLevel leaf.path
  rw [atParent]
  lia

namespace Field

theorem fits_of_mem_visitsOf {path : Path} {label : Label} {column : Nat} {level : Level}
    {field : Field} (each : ∀ {level value visit}, field.Admits value →
      level ≤ Path.repetitionLevel (path ++ [label]) →
      visit ∈ field.visits (path ++ [label]) column level value →
        visit.2.Fits visit.1 ∧ Path.definitionLevel (path ++ [label]) ≤ visit.2.definition)
    (within : level ≤ Path.repetitionLevel path) :
    ∀ {values : List Value} {visit : Visit}, label.cardinality.Allows values.length →
      (∀ value ∈ values, field.Admits value) →
      visit ∈ field.visitsOf (path ++ [label]) column level values →
        visit.2.Fits visit.1 ∧ Path.definitionLevel path ≤ visit.2.definition
  | [], visit, allowed, _, member => by
    obtain ⟨leaf, below, rfl⟩ := List.mem_map.mp member
    have absent := Cardinality.allows_zero_iff.mp allowed
    have atParent := (Path.absentLevel_of_mayBeAbsent path absent).1
    exact ⟨Row.fits_absence absent within below, Nat.le_of_eq atParent.symm⟩
  | first :: more, visit, _, admitted, member => by
    have further := Path.repetitionLevel_le_of_isPrefix (List.prefix_append path [label])
    have deeper := Path.definitionLevel_le_of_isPrefix (List.prefix_append path [label])
    rw [List.forall_mem_cons] at admitted
    have fits : visit.2.Fits visit.1 ∧
        Path.definitionLevel (path ++ [label]) ≤ visit.2.definition := by
      rcases List.mem_append.mp member with here | later
      · exact each admitted.1 (Nat.le_trans within further) here
      · obtain ⟨value, among, here⟩ := List.mem_flatMap.mp later
        exact each (admitted.2 value among) (Nat.le_refl _) here
    exact ⟨fits.1, Nat.le_trans deeper fits.2⟩

mutual

theorem fits_of_mem_visits {path : Path} {column : Nat} {level : Level} {visit : Visit} :
    ∀ {field : Field} {value : Value}, field.Admits value → level ≤ Path.repetitionLevel path →
      visit ∈ field.visits path column level value →
        visit.2.Fits visit.1 ∧ Path.definitionLevel path ≤ visit.2.definition
  | .leaf label type, .scalar content, admitted, within, member => by
    rw [visits, List.mem_singleton] at member
    rw [Admits, Value.kind, ValueKind.scalar.injEq] at admitted
    subst member admitted
    exact ⟨⟨within, .inr ⟨content, rfl, rfl, rfl⟩⟩, Nat.le_refl _⟩
  | .leaf label type, .record record, admitted, _, _ => by
    rw [Admits, Value.kind] at admitted
    cases admitted
  | .group label children, .record record, admitted, within, member => by
    rw [Admits] at admitted
    rw [visits] at member
    exact fits_of_mem_visitsAll admitted.2 within member
  | .group label children, .scalar content, _, _, member => by
    rw [visits] at member
    cases member

/-- **Every row of an admitted value fits its column**, and its definition level is at least that of
the instance it belongs to. -/
theorem fits_of_mem_visitsAll {path : Path} {column : Nat} {level : Level} {visit : Visit} :
    ∀ {fields : List Field} {record : Record}, AdmitsAll fields record →
      level ≤ Path.repetitionLevel path → visit ∈ visitsAll path column level fields record →
        visit.2.Fits visit.1 ∧ Path.definitionLevel path ≤ visit.2.definition
  | [], record, _, _, member => by
    rw [visitsAll] at member
    cases member
  | field :: fields, record, admitted, within, member => by
    rw [AdmitsAll] at admitted
    rw [visitsAll_cons, List.mem_append] at member
    rcases member with here | later
    · exact fits_of_mem_visitsOf fits_of_mem_visits within admitted.1.1 admitted.1.2 here
    · exact fits_of_mem_visitsAll admitted.2 within later

end

/-! ### Repetition levels -/

/-- Rows of which the first has the given level and every further one a level above a bound. -/
inductive StartsAt (level bound : Level) : List Row → Prop
  | cons {first : Row} {more : List Row} (atLevel : first.repetition = level)
      (beyond : ∀ row ∈ more, bound < row.repetition) : StartsAt level bound (first :: more)

theorem StartsAt.append {level bound bound' : Level} {rows later : List Row} (le : bound ≤ bound')
    (starts : StartsAt level bound' rows) (beyond : ∀ row ∈ later, bound < row.repetition) :
    StartsAt level bound (rows ++ later) := by
  cases starts with
  | cons atLevel deeper =>
    refine .cons atLevel fun row member => ?_
    rcases List.mem_append.mp member with here | onward
    · exact Nat.lt_of_le_of_lt le (deeper row here)
    · exact beyond row onward

/-- A field with more than one value is repeated, and so has one repetition level more. -/
theorem repetitionLevel_lt_of_allows (path : Path) {label : Label} {first second : Value}
    {more : List Value} (allowed : label.cardinality.Allows (first :: second :: more).length) :
    Path.repetitionLevel path < Path.repetitionLevel (path ++ [label]) := by
  have repeats : label.cardinality.isRepeated = true := by
    cases kind : label.cardinality <;> simp_all [Cardinality.Allows, Cardinality.isRepeated]
  rw [Path.repetitionLevel_append, Path.repetitionLevel_singleton_of_repeated repeats]
  exact Nat.lt_succ_self _

theorem startsAt_visitsOf {path : Path} {label : Label} {column : Nat} {level : Level}
    {field : Field} {leaf : Node} (below : leaf ∈ field.leaves (path ++ [label]) column)
    (each : ∀ level value, field.Admits value → StartsAt level (Path.repetitionLevel (path ++ [label]))
      (rowsAt leaf.column (field.visits (path ++ [label]) column level value))) :
    ∀ {values : List Value}, label.cardinality.Allows values.length →
      (∀ value ∈ values, field.Admits value) →
      StartsAt level (Path.repetitionLevel path)
        (rowsAt leaf.column (field.visitsOf (path ++ [label]) column level values))
  | [], _, _ => by
    rw [rowsAt_visitsOf below]
    exact .cons rfl (by simp)
  | first :: more, allowed, admitted => by
    have further := Path.repetitionLevel_le_of_isPrefix (List.prefix_append path [label])
    rw [rowsAt_visitsOf below]
    refine (each level first (admitted first List.mem_cons_self)).append further ?_
    intro row member
    obtain ⟨value, among, here⟩ := List.mem_flatMap.mp member
    cases more with
    | nil => cases among
    | cons second more =>
      have above := repetitionLevel_lt_of_allows path allowed
      have starts := each (Path.repetitionLevel (path ++ [label])) value
        (admitted value (List.mem_cons_of_mem _ among))
      generalize rowsAt leaf.column (field.visits (path ++ [label]) column _ value) = rows at *
      cases starts with
      | cons atLevel beyond =>
        rcases List.mem_cons.mp here with rfl | later
        · rw [atLevel]
          exact above
        · exact Nat.lt_trans above (beyond row later)

mutual

theorem startsAt_visits {path : Path} {column : Nat} {leaf : Node} (level : Level) :
    ∀ {field : Field} (value : Value), leaf ∈ field.leaves path column → field.Admits value →
      StartsAt level (Path.repetitionLevel path)
        (rowsAt leaf.column (field.visits path column level value))
  | .leaf label type, value, below, _ => by
    rw [leaves_leaf, List.mem_singleton] at below
    subst below
    rw [visits]
    simp only [rowsAt, List.filter_cons_of_pos, decide_true, List.filter_nil, List.map_cons,
      List.map_nil]
    exact .cons rfl (by simp)
  | .group label children, .record record, below, admitted => by
    rw [Admits] at admitted
    rw [visits]
    exact startsAt_visitsAll level record below admitted.2
  | .group label children, .scalar content, _, admitted => by
    rw [Admits] at admitted
    cases admitted

/-- **The rows of a leaf for one instance** start at the level of the instance, and every further one
repeats a field below it. -/
theorem startsAt_visitsAll {path : Path} {column : Nat} {leaf : Node} (level : Level) :
    ∀ {fields : List Field} (record : Record), leaf ∈ leavesAll path column fields →
      AdmitsAll fields record →
      StartsAt level (Path.repetitionLevel path)
        (rowsAt leaf.column (visitsAll path column level fields record))
  | field :: fields, record, below, admitted => by
    rw [AdmitsAll] at admitted
    rw [leavesAll_cons, List.mem_append] at below
    rcases below with here | later
    · rw [rowsAt_visitsAll_of_mem here]
      exact startsAt_visitsOf here
        (fun level value taken => startsAt_visits level value here taken) admitted.1.1 admitted.1.2
    · rw [rowsAt_visitsAll_of_later later]
      exact startsAt_visitsAll level record later admitted.2

end

end Field

namespace Schema

variable {schema : Schema} {record : Record}

/-- **Shredding equals striping**: for each leaf, staging keeps the rows that following the path of
the leaf alone gives. The first of them starts the record, and no other row does. -/
theorem rows_stage_eq_stripe {staged : StagedRecord} {position : Nat} {leaf : Node}
    (accepted : schema.stage record = .ok staged) (found : schema.leaves[position]? = some leaf) :
    staged.rows position = stripe [] leaf.path 0 (.record record) ∧
      ∃ first more, staged.rows position = first :: more ∧ first.repetition = 0 ∧
        ∀ row ∈ more, 1 ≤ row.repetition := by
  have admitted := (stage_eq_ok_iff.mp accepted).1
  have below : leaf ∈ Field.leavesAll [] 0 schema.fields := List.mem_of_getElem? found
  have starts := Field.startsAt_visitsAll 0 record below (admitsAll_of_admits admitted)
  rw [rows_of_stage accepted found]
  refine ⟨Field.rowsAt_visitsAll 0 record below rfl, ?_⟩
  rw [visits]
  generalize rowsAt leaf.column (Field.visitsAll [] 0 0 schema.fields record) = rows at starts
  cases starts with
  | cons atLevel beyond => exact ⟨_, _, rfl, atLevel, beyond⟩

theorem rows_stage_countries : ∃ staged leaf,
    Sample.documentType.stage Sample.largeDocument = .ok staged ∧
      Sample.documentType.leaves[4]? = some leaf ∧
      staged.rows 4 = stripe [] leaf.path 0 (.record Sample.largeDocument) ∧
      ∃ first more, staged.rows 4 = first :: more ∧ first.repetition = 0 ∧
        ∀ row ∈ more, 1 ≤ row.repetition := by
  have accepted : ∃ staged, Sample.documentType.stage Sample.largeDocument = .ok staged := ⟨_, rfl⟩
  have found : ∃ leaf, Sample.documentType.leaves[4]? = some leaf := ⟨_, rfl⟩
  obtain ⟨staged, accepted⟩ := accepted
  obtain ⟨leaf, found⟩ := found
  exact ⟨staged, leaf, accepted, found, rows_stage_eq_stripe accepted found⟩

example : (Sample.documentType.leaves[4]?.map fun leaf =>
    (stripe [] leaf.path 0 (.record Sample.largeDocument)).map fun row =>
      (row.repetition, row.definition)) = some [(0, 3), (2, 2), (1, 1), (1, 3)] := rfl

end Schema

end NestedColumns
