/-
Columns that rows were inserted into.

A column takes any rows that keep to the levels of its field, also rows that no record was made of
and that contradict those of other columns. What it is then can be said without the insertions:

* `IsFilled.exists_holding` — it holds rows that fit its leaf;
* `exists_recordStart?_iff` — its index lists the rows of level 0, and in order
  (`recordStart?_lt_iff`);
* `exists_recordRows?` — the rows of a record go on up to the next of these, or to the end.
-/

import Mathlib.Data.List.Sort
import NestedColumns.Proofs.Column.Holding

namespace NestedColumns.Column

/-- **A column of a field after any insertions.** A row that is refused leaves the column as it is. -/
inductive IsFilled (schema : Schema) (field : FieldId) : Column → Prop
  | new {column : Column} (made : Column.new schema field = .ok column) :
      IsFilled schema field column
  | insert {column longer : Column} {row : Row} {position : Nat}
      (filled : IsFilled schema field column) (taken : column.insert row = .ok (longer, position)) :
      IsFilled schema field longer

variable {leaf : Node} {rows : List Row}

/-- A row is taken only if it fits. -/
theorem fits_of_insert {row : Row} {result : Column × Nat} (isLeaf : leaf.isLeaf = true)
    (taken : (holding leaf rows).insert row = .ok result) : row.Fits leaf := by
  by_contra refused
  obtain ⟨fault, failed⟩ : ∃ fault,
      (holding leaf rows).append row = (holding leaf rows, .error fault) :=
    append_refused isLeaf refused
  rw [insert, failed] at taken
  cases taken

/-- **A filled column holds rows that fit its leaf.** -/
theorem IsFilled.exists_holding {schema : Schema} {field : FieldId} {column : Column}
    (filled : IsFilled schema field column) :
    ∃ leaf rows, schema.resolve field = .ok leaf ∧ leaf.isLeaf = true ∧
      column = holding leaf rows ∧ ∀ row ∈ rows, row.Fits leaf := by
  induction filled with
  | new made =>
    obtain ⟨node, resolved, made⟩ := bind_eq_ok.mp made
    have isLeaf : node.isLeaf = true := by
      cases typed : node.type? with
      | some type => exact congrArg Option.isSome typed
      | none =>
        rw [ofNode, typed] at made
        cases made
    rw [ofNode_eq_holding isLeaf] at made
    cases made
    exact ⟨node, [], resolved, isLeaf, rfl, fun row none => absurd none List.not_mem_nil⟩
  | insert _ taken ih =>
    obtain ⟨leaf, rows, resolved, isLeaf, rfl, fits⟩ := ih
    have fitsLast := fits_of_insert isLeaf taken
    rw [insert_holding fitsLast] at taken
    cases taken
    refine ⟨leaf, _, resolved, isLeaf, rfl, fun row member => ?_⟩
    rcases List.mem_append.mp member with earlier | last
    · exact fits row earlier
    · rw [List.mem_singleton.mp last]
      exact fitsLast

theorem IsFilled.field_eq {schema : Schema} {field : FieldId} {column : Column}
    (filled : IsFilled schema field column) : column.field = field := by
  obtain ⟨leaf, rows, resolved, _, rfl, _⟩ := filled.exists_holding
  unfold Schema.resolve at resolved
  cases found : schema.node? field with
  | none =>
    rw [found] at resolved
    cases resolved
  | some node =>
    rw [found] at resolved
    cases resolved
    exact (Schema.mem_nodes_of_node? found).2

theorem IsFilled.insertAll {schema : Schema} {field : FieldId} {column : Column}
    (filled : IsFilled schema field column) (rows : List Row) :
    IsFilled schema field (column.insertAll rows).1 := by
  induction rows generalizing column with
  | nil => exact filled
  | cons row rows ih =>
    rw [Column.insertAll]
    cases taken : column.insert row with
    | error fault => exact filled
    | ok result => exact ih (filled.insert taken)

/-! ### The index of records -/

theorem recordStart?_holding_getElem? {record : Nat} : (holding leaf rows).recordStart? record =
    (rows.findIdxs (·.repetition = 0))[record]? := by
  unfold recordStart?
  rw [holding, List.getElem?_toArray]

/-- **A position is indexed exactly if its row has level 0.** -/
theorem exists_recordStart?_iff {position : Nat} :
    (∃ record, (holding leaf rows).recordStart? record = some position) ↔
      (holding leaf rows).repetitionLevels[position]? = some 0 := by
  simp only [recordStart?_holding_getElem?, ← List.mem_iff_getElem?,
    List.mem_findIdxs_iff_exists_getElem_pos]
  rw [holding, List.getElem?_toArray, List.getElem?_map, Option.map_eq_some_iff]
  constructor
  · rintro ⟨inside, starts⟩
    exact ⟨_, List.getElem?_eq_getElem inside, of_decide_eq_true starts⟩
  · rintro ⟨row, found, starts⟩
    obtain ⟨inside, rfl⟩ := List.getElem?_eq_some_iff.mp found
    exact ⟨inside, decide_eq_true starts⟩

theorem lt_size_of_recordStart? {record start : Nat}
    (starts : (holding leaf rows).recordStart? record = some start) :
    start < (holding leaf rows).size := by
  have level := exists_recordStart?_iff.mp ⟨record, starts⟩
  exact (Array.getElem?_eq_some_iff.mp level).1

/-- Records start one after the other. -/
theorem recordStart?_lt_iff {first second start next : Nat}
    (starts : (holding leaf rows).recordStart? first = some start)
    (goesOn : (holding leaf rows).recordStart? second = some next) :
    start < next ↔ first < second := by
  rw [recordStart?_holding_getElem?] at starts goesOn
  obtain ⟨inside, rfl⟩ := List.getElem?_eq_some_iff.mp starts
  obtain ⟨inside', rfl⟩ := List.getElem?_eq_some_iff.mp goesOn
  exact List.pairwise_findIdxs.sortedLT.getElem_lt_getElem_iff

/-- A position where a record starts or the column ends. -/
def IsBoundary (column : Column) (position : Nat) : Prop :=
  position = column.size ∨ ∃ record, column.recordStart? record = some position

/-- **The rows of a record go on up to the next boundary.** -/
theorem exists_recordRows? {record start : Nat}
    (starts : (holding leaf rows).recordStart? record = some start) :
    ∃ stop, (holding leaf rows).recordRows? record = some (start, stop) ∧ start < stop ∧
      (holding leaf rows).IsBoundary stop ∧
      ∀ later, (holding leaf rows).IsBoundary later → start < later → stop ≤ later := by
  unfold recordRows?
  rw [starts, Option.map_some]
  refine ⟨_, rfl, ?_⟩
  cases goesOn : (holding leaf rows).recordStart? (record + 1) with
  | some next =>
    refine ⟨(recordStart?_lt_iff starts goesOn).mpr (Nat.lt_succ_self record), .inr ⟨_, goesOn⟩, ?_⟩
    rintro later (rfl | ⟨other, there⟩) further
    · exact Nat.le_of_lt (lt_size_of_recordStart? goesOn)
    · have onward := (recordStart?_lt_iff starts there).mp further
      have notBefore := mt (recordStart?_lt_iff there goesOn).mp (Nat.not_lt_of_le onward)
      exact Nat.le_of_not_lt notBefore
  | none =>
    refine ⟨lt_size_of_recordStart? starts, .inl rfl, ?_⟩
    rintro later (rfl | ⟨other, there⟩) further
    · exact Nat.le_refl _
    · have onward := (recordStart?_lt_iff starts there).mp further
      rw [recordStart?_holding_getElem?] at goesOn there
      have inside := (List.getElem?_eq_some_iff.mp there).1
      have beyond := List.getElem?_eq_none_iff.mp goesOn
      omega

end NestedColumns.Column
