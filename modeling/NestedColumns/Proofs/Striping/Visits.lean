/-
The rows of a record in the order of writing.

`Field.visits` lists the rows of a value of a field, each with the leaf it belongs to, without any
thought of faults; `Field.Admits` says which values a field takes.

* `Field.shred_meets` — **what shredding does**: it ends without a fault exactly if the field admits
  the value, its rows are then those of `Field.visits`, every fault is a mismatch with the schema,
  and no row leaves the columns of the field.
* `Schema.stage_eq_ok_iff`, `Schema.stage_eq_error` — staging accepts exactly the records that the
  schema admits, and keeps for each column its rows among the visits (`Schema.rows_of_stage`).
-/

import NestedColumns.Proofs.Schema.Leaves
import NestedColumns.Striping.Staged

namespace NestedColumns

/-- A row, with the leaf it belongs to. -/
abbrev Visit := Node × Row

/-- How many values a field of a cardinality may have. -/
def Cardinality.Allows : Cardinality → Nat → Prop
  | .required, count => count = 1
  | .optional, count => count ≤ 1
  | .repeated, _ => True

theorem Cardinality.allows_zero_iff {cardinality : Cardinality} :
    cardinality.Allows 0 ↔ cardinality.mayBeAbsent = true := by
  cases cardinality <;> simp [Allows, mayBeAbsent]

theorem Cardinality.allows_iff {cardinality : Cardinality} {count : Nat} (some : 0 < count) :
    cardinality.Allows count ↔ ¬ (1 < count && !cardinality.isRepeated) = true := by
  cases cardinality with
  | required =>
    simp [Allows, isRepeated]
    omega
  | optional => simp [Allows, isRepeated]
  | repeated => simp [Allows, isRepeated]

theorem Cardinality.isRepeated_of_allows {cardinality : Cardinality} {first : Value}
    {more : List Value} (allowed : cardinality.Allows (first :: more).length) (several : more ≠ []) :
    cardinality.isRepeated = true := by
  have long := List.length_pos_of_ne_nil several
  cases cardinality with
  | required =>
    simp [Allows] at allowed
    simp [allowed] at long
  | optional =>
    simp [Allows] at allowed
    simp [allowed] at long
  | repeated => rfl

namespace Field

/-- No name is unknown if each that holds a value is that of a field. -/
theorem unknownName?_eq_none_iff {fields : List Field} {record : Record} :
    unknownName? fields record = none ↔
      ∀ entry ∈ record.fields, ∃ field ∈ fields, field.label.name = entry.1 := by
  unfold unknownName?
  rw [Option.map_eq_none_iff, List.find?_eq_none]
  simp

mutual

/-- The values that a field takes. -/
def Admits : Field → Value → Prop
  | .leaf _ type, value => value.kind = .scalar type
  | .group _ children, .record record =>
    unknownName? children record = none ∧ AdmitsAll children record
  | .group .., .scalar _ => False
termination_by structural field => field

def AdmitsAll : List Field → Record → Prop
  | [], _ => True
  | field :: fields, record =>
    (field.label.cardinality.Allows (record.getAll field.label.name).length ∧
      ∀ value ∈ record.getAll field.label.name, field.Admits value) ∧
    AdmitsAll fields record
termination_by structural fields => fields

end

mutual

/-- The rows of a value of the field at `path`, whose first column is `column`. -/
def visits (path : Path) (column : Nat) (level : Level) : Field → Value → List Visit
  | .leaf label type, value =>
    [(⟨path, column, .leaf label type⟩, ⟨some value, level, Path.definitionLevel path⟩)]
  | .group _ children, .record record => visitsAll path column level children record
  | .group .., .scalar _ => []
termination_by structural field => field

/-- The rows that a record has for the given fields under `path`. -/
def visitsAll (path : Path) (column : Nat) (level : Level) : List Field → Record → List Visit
  | [], _ => []
  | field :: fields, record =>
    let below := path ++ [field.label]
    let here :=
      match record.getAll field.label.name with
      | [] => (field.leaves below column).map fun leaf =>
          (leaf, ⟨none, level, Path.absentLevel below⟩)
      | first :: more => field.visits below column level first ++
          more.flatMap fun value => field.visits below column (Path.repetitionLevel below) value
    here ++ visitsAll path (column + field.leafCount) level fields record
termination_by structural fields => fields

end

/-- The rows that the values of one field under `path` have. -/
def visitsOf (path : Path) (column : Nat) (level : Level) (field : Field) :
    List Value → List Visit
  | [] => (field.leaves path column).map fun leaf => (leaf, ⟨none, level, Path.absentLevel path⟩)
  | first :: more => field.visits path column level first ++
      more.flatMap fun value => field.visits path column (Path.repetitionLevel path) value

theorem visitsAll_cons (path : Path) (column : Nat) (level : Level) (field : Field)
    (fields : List Field) (record : Record) :
    visitsAll path column level (field :: fields) record =
      field.visitsOf (path ++ [field.label]) column level (record.getAll field.label.name) ++
        visitsAll path (column + field.leafCount) level fields record := by
  rw [visitsAll]
  cases record.getAll field.label.name <;> rfl

end Field

/-! ### Shredding -/

namespace Written

/-- A writing into the columns from `low` up to `high`, which fails unless `admitted`, with a
mismatch, and otherwise writes the rows of `trace`. -/
structure Meets (written : Written) (low high : Nat) (admitted : Prop) (trace : List Visit) :
    Prop where
  columns : ∀ entry ∈ written.rows, low ≤ entry.1 ∧ entry.1 < high
  mismatch : ∀ fault, written.fault = some fault → ∃ path reason, fault = .schemaMismatch path reason
  accepts : written.fault = none ↔ admitted
  rows : admitted → written.rows = trace.map fun visit => (visit.1.column, visit.2)

variable {low middle high : Nat} {admitted also : Prop} {trace later : List Visit}

theorem Meets.stop {path : String} {reason : MismatchReason} (refused : ¬ admitted) :
    (Written.stop (.schemaMismatch path reason)).Meets low high admitted trace where
  columns := by simp [Written.stop]
  mismatch := by
    rintro fault ⟨⟩
    exact ⟨path, reason, rfl⟩
  accepts := iff_of_false (by simp [Written.stop]) refused
  rows := fun taken => absurd taken refused

theorem Meets.congr {written : Written} (same : admitted ↔ also)
    (meets : written.Meets low high admitted trace) : written.Meets low high also trace :=
  propext same ▸ meets

theorem Meets.widen {written : Written} {low' high' : Nat} (from_le : low' ≤ low)
    (upto_le : high ≤ high') (meets : written.Meets low high admitted trace) :
    written.Meets low' high' admitted trace where
  columns := by
    intro entry member
    have inside := meets.columns entry member
    omega
  mismatch := meets.mismatch
  accepts := meets.accepts
  rows := meets.rows

theorem Meets.andThen {first second : Written} (meets : first.Meets low high admitted trace)
    (next : second.Meets low high also later) :
    (first.andThen second).Meets low high (admitted ∧ also) (trace ++ later) := by
  unfold Written.andThen
  cases ended : first.fault with
  | some fault =>
    have refused : ¬ admitted := by
      rw [← meets.accepts, ended]
      simp
    exact
      { columns := meets.columns
        mismatch := meets.mismatch
        accepts := iff_of_false (by simp [ended]) fun both => refused both.1
        rows := fun both => absurd both.1 refused }
  | none =>
    have taken := meets.accepts.mp ended
    refine ⟨?_, next.mismatch, ?_, ?_⟩
    · intro entry member
      rcases List.mem_append.mp member with here | onward
      · exact meets.columns entry here
      · exact next.columns entry onward
    · rw [and_iff_right taken]
      exact next.accepts
    · intro both
      show first.rows ++ second.rows = _
      rw [meets.rows taken, next.rows both.2, List.map_append]

theorem Meets.inOrder {write : Value → Written} {admits : Value → Prop}
    {visits : Value → List Visit}
    (each : ∀ value, (write value).Meets low high (admits value) (visits value)) :
    ∀ values : List Value, (Written.inOrder (values.map write)).Meets low high (∀ value ∈ values, admits value)
        (values.flatMap visits)
  | [] =>
    { columns := by simp [Written.inOrder]
      mismatch := by simp [Written.inOrder]
      accepts := by simp [Written.inOrder]
      rows := by simp [Written.inOrder] }
  | value :: values => by
    rw [List.map_cons, List.flatMap_cons]
    refine Meets.congr ?_ ((each value).andThen (Meets.inOrder each values))
    rw [List.forall_mem_cons]

end Written

namespace Field

mutual

theorem spread_eq (row : Row) (path : Path) (column : Nat) : ∀ field : Field,
    field.spread row column = (field.leaves path column).map fun leaf => (leaf.column, row)
  | .leaf _ _ => rfl
  | .group _ children => by
    rw [spread, leaves_group]
    exact spreadAll_eq row path column children

/-- A row for every leaf at or below a field. -/
theorem spreadAll_eq (row : Row) (path : Path) (column : Nat) : ∀ fields : List Field,
    spreadAll row column fields = (leavesAll path column fields).map fun leaf => (leaf.column, row)
  | [] => rfl
  | field :: fields => by
    rw [spreadAll, leavesAll_cons, List.map_append, spread_eq row (path ++ [field.label]),
      spreadAll_eq row path]

end

/-- The absence of a field is written in every column of it. -/
theorem writeNull_meets (path : Path) (column : Nat) (level : Level) (field : Field) :
    (Node.writeNull ⟨path, column, field⟩ level (Path.absentLevel path)).Meets column
      (column + field.leafCount) True (field.visitsOf path column level []) where
  columns := by
    intro entry member
    unfold Node.writeNull at member
    rw [spread_eq _ path] at member
    obtain ⟨leaf, below, rfl⟩ := List.mem_map.mp member
    exact column_mem_range_of_mem_leaves below
  mismatch := by simp [Node.writeNull]
  accepts := by simp [Node.writeNull]
  rows := by
    intro _
    unfold Node.writeNull
    rw [spread_eq _ path, visitsOf, List.map_map]
    rfl

/-- A value of a scalar type is a row of a leaf, and nothing else is. -/
theorem writeValue_meets (path : Path) (column : Nat) (level : Level) (field : Field)
    (content : Scalar) :
    (Node.writeValue ⟨path, column, field⟩ (.scalar content) level).Meets column
      (column + field.leafCount) (field.Admits (.scalar content))
      (field.visits path column level (.scalar content)) := by
  cases field with
  | group label children =>
    refine .stop ?_
    simp [Admits]
  | leaf label type =>
    by_cases same : (Value.scalar content).kind = .scalar type
    · have written : Node.writeValue ⟨path, column, .leaf label type⟩ (.scalar content) level =
          .row column ⟨some (.scalar content), level, Path.definitionLevel path⟩ := if_pos same
      rw [written]
      exact
        { columns := by simp [Written.row, leafCount]
          mismatch := by simp [Written.row]
          accepts := by simp [Written.row, Admits, same]
          rows := by simp [Written.row, visits] }
    · have stopped : ∃ reason, Node.writeValue ⟨path, column, .leaf label type⟩ (.scalar content)
          level = .stop (.schemaMismatch (Path.text path) reason) := ⟨_, if_neg same⟩
      obtain ⟨reason, stopped⟩ := stopped
      rw [stopped]
      exact .stop same

/-- The values of one field, each of which meets its visits. -/
theorem valuesOf_meets {path : Path} {column : Nat} {level : Level} {field : Field}
    (each : ∀ level value, (field.shred path column level value).Meets column
      (column + field.leafCount) (field.Admits value) (field.visits path column level value)) :
    ∀ values : List Value, values ≠ [] →
      (Written.inOrder (values.mapIdx fun index value => field.shred path column
        (if index = 0 then level else Path.repetitionLevel path) value)).Meets column
        (column + field.leafCount) (∀ value ∈ values, field.Admits value)
        (field.visitsOf path column level values)
  | first :: more, _ => by
    have later : more.mapIdx (fun index value => field.shred path column
        (if index + 1 = 0 then level else Path.repetitionLevel path) value) =
        more.map (field.shred path column (Path.repetitionLevel path)) := by
      ext1 i
      simp
    rw [List.mapIdx_cons, later]
    refine Written.Meets.congr ?_ ((each level first).andThen
      (Written.Meets.inOrder (each (Path.repetitionLevel path)) more))
    rw [List.forall_mem_cons]

mutual

/-- **Shredding a value** writes the rows of its visits if the field admits it, and fails with a
mismatch otherwise. -/
theorem shred_meets {path : Path} {column : Nat} (level : Level) : ∀ (field : Field) (value : Value),
    (field.shred path column level value).Meets column (column + field.leafCount)
      (field.Admits value) (field.visits path column level value)
  | .leaf label type, .record record => .stop (by simp [Admits, Value.kind])
  | .leaf label type, .scalar content => by
    rw [shred]
    exact writeValue_meets path column level (.leaf label type) content
  | .group label children, .scalar content => by
    rw [shred]
    exact writeValue_meets path column level (.group label children) content
  | .group label children, .record record => by
    rw [shred, Admits, leafCount, visits]
    cases unknown : unknownName? children record with
    | some name =>
      refine .stop ?_
      simp
    | none =>
      refine Written.Meets.congr ?_ (shredAll_meets level children record)
      simp

theorem shredAll_meets {path : Path} {column : Nat} (level : Level) :
    ∀ (fields : List Field) (record : Record),
      (shredAll path column level fields record).Meets column (column + leafCounts fields)
        (AdmitsAll fields record) (visitsAll path column level fields record)
  | [], record =>
    { columns := by simp [shredAll]
      mismatch := by simp [shredAll]
      accepts := by simp [shredAll, AdmitsAll]
      rows := by simp [shredAll, visitsAll] }
  | field :: fields, record => by
    rw [shredAll, AdmitsAll, leafCounts, visitsAll_cons]
    have onward : (shredAll path (column + field.leafCount) level fields record).Meets column
        (column + (field.leafCount + leafCounts fields)) _ _ :=
      (shredAll_meets level fields record).widen (Nat.le_add_right column _)
        (Nat.le_of_eq (Nat.add_assoc ..))
    refine Written.Meets.andThen (Written.Meets.widen (Nat.le_refl _)
      (Nat.add_le_add_left (Nat.le_add_right _ _) _) ?_) onward
    generalize record.getAll field.label.name = values
    cases values with
    | nil =>
      rw [List.isEmpty_nil, if_pos rfl, List.length_nil, Cardinality.allows_zero_iff]
      by_cases absent : field.label.cardinality.mayBeAbsent = true
      · rw [if_pos absent]
        refine (writeNull_meets _ column level field).congr ?_
        simp [absent]
      · rw [if_neg absent]
        refine .stop ?_
        simp [absent]
    | cons first more =>
      rw [List.isEmpty_cons, if_neg Bool.false_ne_true,
        Cardinality.allows_iff (List.length_pos_of_ne_nil (List.cons_ne_nil first more))]
      by_cases tooMany : (1 < (first :: more).length && !field.label.cardinality.isRepeated) = true
      · rw [if_pos tooMany]
        exact .stop fun both => both.1 tooMany
      · rw [if_neg tooMany, and_iff_right tooMany]
        exact valuesOf_meets (fun level value => shred_meets level field value) (first :: more)
          (List.cons_ne_nil _ _)

end

end Field

/-! ### Staging -/

/-- The rows of one column among visits. -/
def rowsAt (column : Nat) (visits : List Visit) : List Row :=
  (visits.filter (·.1.column = column)).map (·.2)

@[simp]
theorem rowsAt_nil (column : Nat) : rowsAt column [] = [] := rfl

@[simp]
theorem rowsAt_append (column : Nat) (first second : List Visit) :
    rowsAt column (first ++ second) = rowsAt column first ++ rowsAt column second := by
  simp [rowsAt]

theorem StagedRecord.deliver_eq_ok {entries : List (Nat × Row)} {staged : StagedRecord}
    (within : ∀ entry ∈ entries, entry.1 < staged.columnCount) :
    Written.deliver StagedRecord.insert entries staged =
      (⟨staged.columns.mapIdx fun column buffered =>
        buffered ++ (entries.filter (·.1 = column)).map (·.2)⟩, .ok ()) := by
  induction entries generalizing staged with
  | nil =>
    have same : staged.columns.mapIdx (fun _ buffered => buffered ++ []) = staged.columns := by
      ext1 i
      simp
    rw [Written.deliver]
    exact congrArg (fun columns => (StagedRecord.mk columns, Except.ok ())) same.symm
  | cons entry entries ih =>
    obtain ⟨column, row⟩ := entry
    rw [List.forall_mem_cons] at within
    have taken : staged.insert column row =
        .ok ⟨staged.columns.modify column (· ++ [row])⟩ := if_pos within.1
    rw [Written.deliver, taken]
    dsimp only
    rw [ih (by simpa [columnCount] using within.2)]
    congr 2
    ext1 i
    by_cases here : column = i
    · simp [here, Function.comp_def]
    · simp [here]

namespace Schema

/-- The records that a schema takes. -/
def Admits (schema : Schema) (record : Record) : Prop :=
  schema.root.field.Admits (.record record)

/-- The rows of a record in the order of writing. -/
def visits (schema : Schema) (record : Record) : List Visit :=
  Field.visitsAll [] 0 0 schema.fields record

variable {schema : Schema} {record : Record}

theorem admitsAll_of_admits (admitted : schema.Admits record) :
    Field.AdmitsAll schema.fields record := by
  rw [Admits, root, Field.Admits] at admitted
  exact admitted.2

theorem shred_meets : (schema.shred record).Meets 0 schema.columnCount (schema.Admits record)
    (schema.visits record) := by
  have meets : (schema.root.field.shred [] 0 0 (.record record)).Meets 0
      (0 + schema.root.field.leafCount) _ _ := Field.shred_meets 0 schema.root.field (.record record)
  have count : schema.columnCount = 0 + schema.root.field.leafCount := by
    have columns := congrArg List.length (Field.map_column_leavesAll [] 0 schema.fields)
    rw [← leaves_eq, List.length_map, List.length_range'] at columns
    rw [columnCount, leafIds, List.length_map, columns, Nat.zero_add]
    rfl
  rw [count]
  exact meets

/-- The rows written for a record stay among the columns, so staging takes all of them. -/
theorem into_stage : (schema.shred record).into StagedRecord.insert
    (StagedRecord.new schema.columnCount) =
      (⟨(List.range schema.columnCount).map fun column =>
        ((schema.shred record).rows.filter (·.1 = column)).map (·.2)⟩,
        match (schema.shred record).fault with
        | some fault => .error fault
        | none => .ok ()) := by
  have within : ∀ entry ∈ (schema.shred record).rows,
      entry.1 < (StagedRecord.new schema.columnCount).columnCount := by
    intro entry member
    have inside := (shred_meets.columns entry member).2
    simpa [StagedRecord.new, StagedRecord.columnCount] using inside
  unfold Written.into
  rw [StagedRecord.deliver_eq_ok within]
  have columns : (StagedRecord.new schema.columnCount).columns.mapIdx (fun column buffered =>
      buffered ++ ((schema.shred record).rows.filter (·.1 = column)).map (·.2)) =
      (List.range schema.columnCount).map fun column =>
        ((schema.shred record).rows.filter (·.1 = column)).map (·.2) := by
    ext1 i
    by_cases inside : i < schema.columnCount
    · simp [StagedRecord.new, inside]
    · simp [StagedRecord.new, inside]
  rw [columns]
  cases (schema.shred record).fault <;> rfl

/-- The leaves have the columns from the first to the last. -/
theorem map_column_leaves (schema : Schema) :
    schema.leaves.map (·.column) = List.range schema.columnCount := by
  have range := Field.map_column_leavesAll [] 0 schema.fields
  have lengths := congrArg List.length range
  rw [List.length_map, List.length_range', ← leaves_eq] at lengths
  rw [leaves_eq, range, columnCount, leafIds, List.length_map, lengths, List.range_eq_range']

/-- **Staging a record that the schema admits** keeps its rows, column by column. -/
theorem stage_eq_ok (admitted : schema.Admits record) :
    schema.stage record =
      .ok ⟨schema.leaves.map fun leaf => rowsAt leaf.column (schema.visits record)⟩ := by
  have ended := shred_meets.accepts.mpr admitted
  have rows := shred_meets.rows admitted
  have each : schema.leaves.map (fun leaf => rowsAt leaf.column (schema.visits record)) =
      (List.range schema.columnCount).map fun column => rowsAt column (schema.visits record) := by
    rw [← map_column_leaves, List.map_map]
    rfl
  unfold stage
  rw [into_stage, ended, rows, each]
  simp [rowsAt, List.filter_map, Function.comp_def]

/-- Staging any other record fails with a mismatch. -/
theorem stage_eq_error (refused : ¬ schema.Admits record) :
    ∃ path reason, schema.stage record = .error (.schemaMismatch path reason) := by
  cases ended : (schema.shred record).fault with
  | none => exact absurd (shred_meets.accepts.mp ended) refused
  | some fault =>
    obtain ⟨path, reason, rfl⟩ := shred_meets.mismatch fault ended
    refine ⟨path, reason, ?_⟩
    unfold stage
    rw [into_stage, ended]

theorem stage_eq_ok_iff {staged : StagedRecord} : schema.stage record = .ok staged ↔
    schema.Admits record ∧
      staged = ⟨schema.leaves.map fun leaf => rowsAt leaf.column (schema.visits record)⟩ := by
  constructor
  · intro accepted
    have admitted : schema.Admits record := by
      by_contra refused
      obtain ⟨path, reason, failed⟩ := stage_eq_error refused
      rw [failed] at accepted
      cases accepted
    rw [stage_eq_ok admitted] at accepted
    exact ⟨admitted, (Except.ok.inj accepted).symm⟩
  · rintro ⟨admitted, rfl⟩
    exact stage_eq_ok admitted

/-- What staging keeps for a leaf are the rows that are written for it. -/
theorem rows_of_stage {staged : StagedRecord} {position : Nat} {leaf : Node}
    (accepted : schema.stage record = .ok staged) (found : schema.leaves[position]? = some leaf) :
    staged.rows position = rowsAt leaf.column (schema.visits record) := by
  obtain ⟨_, rfl⟩ := stage_eq_ok_iff.mp accepted
  rw [StagedRecord.rows, List.getElem?_map, found]
  rfl

end Schema

end NestedColumns
