/-
How the rows of two columns stand to each other.

Columns differ in length, and rows of different columns do not belong together by position. They do
by level: `outline shared depth rows` keeps the rows up to the repetition level that two leaves
share, and of each its repetition level and as much of its definition level as the common ancestor
of the leaves reaches. That is what rows of either leaf say about the groups around both.

* `Field.outline_visitsAll` — the two leaves of one instance have the same outline. Where their
  paths part, each of them has one row in it, at the level of the instance; above that, the values
  of one field are outlined one after the other.
* `Schema.outline_stage` — so do the columns that staging fills.
-/

import NestedColumns.Proofs.Schema.Ancestors
import NestedColumns.Proofs.Striping.Stripe

namespace NestedColumns

/-- What rows say about the groups that their leaf shares with another one. -/
def outline (shared depth : Level) (rows : List Row) : List (Level × Level) :=
  (rows.filter (·.repetition ≤ shared)).map fun row => (row.repetition, min row.definition depth)

section Outline

variable {shared depth level : Level} {rows : List Row}

theorem outline_append (first second : List Row) :
    outline shared depth (first ++ second) =
      outline shared depth first ++ outline shared depth second := by
  unfold outline
  rw [List.filter_append, List.map_append]

theorem outline_flatMap (rowsOf : Value → List Row) (values : List Value) :
    outline shared depth (values.flatMap rowsOf) =
      values.flatMap fun value => outline shared depth (rowsOf value) := by
  simp [outline, List.filter_flatMap, List.map_flatMap]

/-- Rows of which only the first is shared are outlined by it alone. -/
theorem outline_of_startsAt (starts : Field.StartsAt level shared rows) (within : level ≤ shared)
    (defined : ∀ row ∈ rows, depth ≤ row.definition) :
    outline shared depth rows = [(level, depth)] := by
  cases starts with
  | @cons first more atLevel beyond =>
    have others : more.filter (·.repetition ≤ shared) = [] := by
      rw [List.filter_eq_nil_iff]
      intro row member
      simpa using beyond row member
    have reaches := defined first List.mem_cons_self
    rw [outline, List.filter_cons_of_pos (by simpa [atLevel] using within), others,
      List.map_singleton, atLevel, Nat.min_eq_right reaches]

end Outline

namespace Field

/-- The values of one field give two of its leaves the same outline if each of them does. -/
theorem outline_visitsOf {path : Path} {column : Nat} {level shared depth : Level} {field : Field}
    {a b : Node} (first : a ∈ field.leaves path column) (second : b ∈ field.leaves path column)
    (each : ∀ {level value}, field.Admits value → level ≤ Path.repetitionLevel path →
      outline shared depth (rowsAt a.column (field.visits path column level value)) =
        outline shared depth (rowsAt b.column (field.visits path column level value)))
    (within : level ≤ Path.repetitionLevel path) {values : List Value}
    (admitted : ∀ value ∈ values, field.Admits value) :
    outline shared depth (rowsAt a.column (field.visitsOf path column level values)) =
      outline shared depth (rowsAt b.column (field.visitsOf path column level values)) := by
  rw [rowsAt_visitsOf first, rowsAt_visitsOf second]
  cases values with
  | nil => rfl
  | cons value more =>
    rw [List.forall_mem_cons] at admitted
    dsimp only
    rw [outline_append, outline_append, outline_flatMap, outline_flatMap, each admitted.1 within]
    refine congrArg _ (List.flatMap_congr fun value member => ?_)
    exact each (admitted.2 value member) (Nat.le_refl _)

/-- Where the paths of two leaves part, each of them has one row in the outline, at the level of the
instance. -/
theorem outline_visitsAll_of_parted {path : Path} {column : Nat} {level : Level}
    {fields : List Field} {record : Record} {leaf : Node}
    (member : leaf ∈ leavesAll path column fields) (admitted : AdmitsAll fields record)
    (within : level ≤ Path.repetitionLevel path) :
    outline (Path.repetitionLevel path) (Path.definitionLevel path)
      (rowsAt leaf.column (visitsAll path column level fields record)) =
        [(level, Path.definitionLevel path)] := by
  refine outline_of_startsAt (startsAt_visitsAll level record member admitted) within ?_
  intro row among
  obtain ⟨visit, visited, rfl⟩ := List.mem_map.mp among
  exact (fits_of_mem_visitsAll admitted within (List.mem_of_mem_filter visited)).2

mutual

theorem outline_visits {path : Path} {column : Nat} {level : Level} {a b : Node} :
    ∀ {field : Field} {value : Value}, field.WellFormed → field.Admits value →
      a ∈ field.leaves path column → b ∈ field.leaves path column → a.column ≠ b.column →
      level ≤ Path.repetitionLevel path →
      outline (a.commonRepetition b) (Path.definitionLevel (Path.shared a.path b.path))
          (rowsAt a.column (field.visits path column level value)) =
        outline (a.commonRepetition b) (Path.definitionLevel (Path.shared a.path b.path))
          (rowsAt b.column (field.visits path column level value))
  | .leaf label type, value, _, _, first, second, distinct, _ => by
    rw [leaves_leaf, List.mem_singleton] at first second
    rw [first, second] at distinct
    exact absurd rfl distinct
  | .group label children, .record record, .group _ _ _ numbered each, admitted, first, second,
      distinct, within => by
    rw [Admits] at admitted
    rw [visits]
    exact outline_visitsAll each numbered admitted.2 first second distinct within
  | .group label children, .scalar content, _, admitted, _, _, _, _ => by
    rw [Admits] at admitted
    cases admitted

/-- **Two leaves of one instance have the same outline.** -/
theorem outline_visitsAll {path : Path} {column : Nat} {level : Level} {a b : Node} :
    ∀ {fields : List Field} {record : Record}, (∀ field ∈ fields, field.WellFormed) →
      (fields.map (·.label.id)).Nodup → AdmitsAll fields record →
      a ∈ leavesAll path column fields → b ∈ leavesAll path column fields →
      a.column ≠ b.column → level ≤ Path.repetitionLevel path →
      outline (a.commonRepetition b) (Path.definitionLevel (Path.shared a.path b.path))
          (rowsAt a.column (visitsAll path column level fields record)) =
        outline (a.commonRepetition b) (Path.definitionLevel (Path.shared a.path b.path))
          (rowsAt b.column (visitsAll path column level fields record))
  | field :: fields, record, wellFormed, numbered, admitted, first, second, distinct, within => by
    have whole := admitted
    have anyOf : ∀ {leaf}, leaf ∈ leavesAll path column (field :: fields) →
        outline (Path.repetitionLevel path) (Path.definitionLevel path)
          (rowsAt leaf.column (visitsAll path column level (field :: fields) record)) =
            [(level, Path.definitionLevel path)] :=
      fun member => outline_visitsAll_of_parted member whole within
    have bothIn := And.intro first second
    rw [AdmitsAll] at admitted
    rw [List.forall_mem_cons] at wellFormed
    rw [List.map_cons, List.nodup_cons] at numbered
    rw [leavesAll_cons, List.mem_append] at first second
    have parted : ∀ {x y}, x ∈ field.leaves (path ++ [field.label]) column →
        y ∈ leavesAll path (column + field.leafCount) fields →
        ∃ other, path ++ [field.label] <+: x.path ∧ path ++ [Field.label other] <+: y.path ∧
          field.label.id ≠ other.label.id := by
      intro x y here later
      obtain ⟨other, among, through⟩ := path_isPrefix_of_mem_leavesAll later
      exact ⟨other, path_isPrefix_of_mem_leaves here, through,
        fun same => numbered.1 (List.mem_map.mpr ⟨other, among, same.symm⟩)⟩
    rcases first with here | later
    · rcases second with here' | later'
      · have further := Path.repetitionLevel_le_of_isPrefix (List.prefix_append path [field.label])
        rw [rowsAt_visitsAll_of_mem here, rowsAt_visitsAll_of_mem here']
        exact outline_visitsOf here here'
          (fun taken inside => outline_visits wellFormed.1 taken here here' distinct inside)
          (Nat.le_trans within further) admitted.1.2
      · obtain ⟨other, leads, leads', differ⟩ := parted here later'
        rw [Node.commonRepetition_of_parted leads leads' differ,
          Path.shared_eq_of_parted leads leads' differ, anyOf bothIn.1, anyOf bothIn.2]
    · rcases second with here' | later'
      · obtain ⟨other, leads, leads', differ⟩ := parted here' later
        rw [Node.commonRepetition_of_parted leads' leads differ.symm,
          Path.shared_eq_of_parted leads' leads differ.symm, anyOf bothIn.1, anyOf bothIn.2]
      · rw [rowsAt_visitsAll_of_later later, rowsAt_visitsAll_of_later later']
        exact outline_visitsAll wellFormed.2 numbered.2 admitted.2 later later' distinct within

end

end Field

namespace Schema

variable {schema : Schema}

/-- The definition level of the common ancestor of two fields, 0 if that is the root. -/
def commonDefinition? (schema : Schema) (a b : FieldId) : Option Level := do
  match ← schema.commonAncestor? a b with
  | some ancestor => schema.maxDefinition? ancestor
  | none => return 0

/-- The levels of what two different leaves share are those of the part their paths share. -/
theorem IsAccepted.commonLevels_eq (accepted : schema.IsAccepted) {a b : Node}
    (first : a ∈ schema.leaves) (second : b ∈ schema.leaves) (distinct : a.column ≠ b.column) :
    schema.commonRepetition? a.id b.id = some (a.commonRepetition b) ∧
      schema.commonDefinition? a.id b.id =
        some (Path.definitionLevel (Path.shared a.path b.path)) := by
  have among : a ∈ schema.nodes := List.mem_of_mem_filter first
  have among' : b ∈ schema.nodes := List.mem_of_mem_filter second
  have apart : a.id ≠ b.id := fun same =>
    distinct (congrArg Node.column (accepted.eq_of_id_eq among among' same))
  refine ⟨accepted.commonRepetition?_id among among', ?_⟩
  unfold commonDefinition?
  rw [accepted.commonAncestor?_leaves first second apart]
  obtain none | ⟨ancestor, member, ends, last⟩ :=
    eq_nil_or_exists_mem_nodes among (Path.shared_isPrefix_left a.path b.path)
  · rw [none]
    rfl
  · rw [last, ← ends]
    show schema.maxDefinition? ancestor.id = _
    rw [maxDefinition?, accepted.node?_id member]
    rfl

/-- **Columns are aligned through their levels.** Of the rows that staging makes for two different
leaves, those up to the repetition level that the leaves share are equally many and agree one by one:
in the repetition level, and in the definition level as far as the common ancestor reaches. -/
theorem outline_stage (accepted : schema.IsAccepted) {record : Record} {staged : StagedRecord}
    (taken : schema.stage record = .ok staged) {i j : Nat} {a b : Node}
    (first : schema.leaves[i]? = some a) (second : schema.leaves[j]? = some b) (distinct : i ≠ j) :
    ∃ shared depth, schema.commonRepetition? a.id b.id = some shared ∧
      schema.commonDefinition? a.id b.id = some depth ∧
      outline shared depth (staged.rows i) = outline shared depth (staged.rows j) := by
  have admitted := (stage_eq_ok_iff.mp taken).1
  have inside : a ∈ schema.leaves := List.mem_of_getElem? first
  have inside' : b ∈ schema.leaves := List.mem_of_getElem? second
  have apart : a.column ≠ b.column := by
    rw [column_of_leaves_getElem? first, column_of_leaves_getElem? second]
    exact distinct
  obtain ⟨repetition, definition⟩ := accepted.commonLevels_eq inside inside' apart
  refine ⟨_, _, repetition, definition, ?_⟩
  rw [rows_of_stage taken first, rows_of_stage taken second]
  cases accepted.wellFormed with
  | group _ _ _ numbered each =>
    exact Field.outline_visitsAll each numbered (admitsAll_of_admits admitted) inside inside' apart
      (Nat.le_refl 0)

theorem outline_stage_codes_urls : ∃ staged a b,
    Sample.documentType.IsAccepted ∧
      Sample.documentType.stage Sample.largeDocument = .ok staged ∧
      Sample.documentType.leaves[3]? = some a ∧ Sample.documentType.leaves[5]? = some b ∧ 3 ≠ 5 ∧
      ∃ shared depth, Sample.documentType.commonRepetition? a.id b.id = some shared ∧
        Sample.documentType.commonDefinition? a.id b.id = some depth ∧
        outline shared depth (staged.rows 3) = outline shared depth (staged.rows 5) := by
  have taken : ∃ staged, Sample.documentType.stage Sample.largeDocument = .ok staged := ⟨_, rfl⟩
  obtain ⟨staged, taken⟩ := taken
  exact ⟨staged, _, _, Sample.documentType_isAccepted, taken, rfl, rfl, by decide,
    outline_stage Sample.documentType_isAccepted taken rfl rfl (by decide)⟩

/-- A document with three names, of which the first has two languages: both columns outline the
three names. -/
example : (Sample.documentType.stage Sample.largeDocument).map (fun staged =>
    (outline 1 1 (staged.rows 3), outline 1 1 (staged.rows 5))) =
      .ok ([(0, 1), (1, 1), (1, 1)], [(0, 1), (1, 1), (1, 1)]) := rfl

end Schema

end NestedColumns
