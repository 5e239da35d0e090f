/-
What the columns of a table hold.

`Column.IsSound leaf column` is the invariant of one column: its arrays are of one length, and every
row keeps to the levels of the leaf and has a value exactly at the greatest definition level. A
column that holds rows that fit is sound (`isSound_holding`).

`isSound_afterCalls` — after any calls every column of a table is sound, counts the records that the
table took, and has for each of them, between the first row of the record and the first row after
it, the rows that staging makes of it.
-/

import NestedColumns.Proofs.Table.Log

namespace NestedColumns

/-- **A sound column of a leaf.** -/
structure Column.IsSound (leaf : Node) (column : Column) : Prop where
  field_eq : column.field = leaf.id
  values_size : column.values.size = column.repetitionLevels.size
  definitions_size : column.definitionLevels.size = column.repetitionLevels.size
  get : ∀ position < column.size, ∃ row, column.get position = .ok row ∧
    row.repetition ≤ leaf.maxRepetition ∧ row.definition ≤ leaf.maxDefinition ∧
    (row.value.isSome = true ↔ row.definition = leaf.maxDefinition)

theorem Row.Fits.isSome_value_iff {row : Row} {leaf : Node} (fits : row.Fits leaf) :
    row.value.isSome = true ↔ row.definition = leaf.maxDefinition := by
  rcases fits.value with ⟨absent, below⟩ | ⟨content, present, _, same⟩
  · rw [absent]
    exact iff_of_false Bool.false_ne_true (Nat.ne_of_lt below)
  · rw [present]
    exact iff_of_true rfl same

theorem Column.isSound_holding {leaf : Node} {rows : List Row} (fits : ∀ row ∈ rows, row.Fits leaf) :
    (Column.holding leaf rows).IsSound leaf where
  field_eq := rfl
  values_size := by simp [Column.holding]
  definitions_size := by simp [Column.holding]
  get := by
    intro position inside
    rw [Column.size_holding] at inside
    have fitsHere := fits rows[position] (List.getElem_mem inside)
    refine ⟨rows[position], ?_, fitsHere.repetition_le, fitsHere.definition_le,
      fitsHere.isSome_value_iff⟩
    unfold Column.get
    rw [Column.get?_holding fits, List.getElem?_eq_getElem inside]

namespace Table

/-- A column of the records of a log: sound, with one record for each of them, whose rows are those
that staging makes. -/
structure IsColumnOf (schema : Schema) (log : List Record) (position : Nat) (leaf : Node)
    (column : Column) : Prop where
  sound : column.IsSound leaf
  recordCount_eq : column.recordCount = log.length
  recordRows : ∀ index record, log[index]? = some record →
    ∃ staged first stop, schema.stage record = .ok staged ∧
      column.recordRows? index = some (first, stop) ∧ stop ≤ column.size ∧
      (column.rows.take stop).drop first = staged.rows position

variable {schema : Schema} {log : List Record} {table : Table}

/-- **The column of a leaf in a table that holds a log.** -/
theorem IsTableOf.isColumnOf (holds : IsTableOf schema log table) {position : Nat} {leaf : Node}
    {column : Column} (found : schema.leaves[position]? = some leaf)
    (stored : table.columns[position]? = some column) :
    IsColumnOf schema log position leaf column := by
  have member := List.mem_of_getElem? found
  rw [holds.columns, Schema.columnsOf, List.getElem?_map, found] at stored
  obtain rfl := Option.some.inj stored
  have each : ∀ rows ∈ log.map fun record => schema.rowsOf record leaf, Column.IsRecord rows := by
    intro rows among
    obtain ⟨record, logged, rfl⟩ := List.mem_map.mp among
    exact Schema.isRecord_rowsOf (holds.admitted record logged) member
  have fits := Schema.fits_of_mem_log holds.admitted member
  refine ⟨Column.isSound_holding fits, ?_, fun index record logged => ?_⟩
  · rw [Column.recordCount_holding each, List.length_map]
  · have admitted := holds.admitted record (List.mem_of_getElem? logged)
    have among : (log.map fun record => schema.rowsOf record leaf)[index]? =
        some (schema.rowsOf record leaf) := by
      rw [List.getElem?_map, logged, Option.map_some]
    have inside := (List.getElem?_eq_some_iff.mp among).1
    refine ⟨_, _, _, Schema.stage_eq_ok admitted, Column.recordRows?_holding each inside, ?_, ?_⟩
    · rw [Column.size_holding]
      conv_rhs => rw [← List.take_append_drop (index + 1) (log.map _), List.flatten_append]
      rw [List.length_append]
      exact Nat.le_add_right _ _
    · rw [Column.rows_holding fits, Column.drop_take_flatten among]
      exact (Schema.rows_of_stage (Schema.stage_eq_ok admitted) found).symm

/-- **Every column of a table, whatever the calls were, is the column of its log**: there is one for
each leaf, and each counts as many records as the table. -/
theorem isSound_afterCalls (schema : Schema) (options : TableOptions) :
    ∃ start, Table.new schema options = .ok start ∧ ∀ calls,
      (start.log calls).length = (start.afterCalls calls).size ∧
      (start.afterCalls calls).columns.length = schema.leaves.length ∧
      ∀ position leaf column, schema.leaves[position]? = some leaf →
        (start.afterCalls calls).columns[position]? = some column →
        column.recordCount = (start.afterCalls calls).size ∧
        IsColumnOf schema (start.log calls) position leaf column := by
  refine ⟨_, new_eq_ok schema options, fun calls => ?_⟩
  have holds := isTableOf_afterCalls (new_eq_ok schema options) calls
  refine ⟨holds.size.symm, ?_, fun position leaf column found stored => ?_⟩
  · rw [holds.columns, Schema.columnsOf, List.length_map]
  · have isColumn := holds.isColumnOf found stored
    exact ⟨isColumn.recordCount_eq.trans holds.size.symm, isColumn⟩

end Table

end NestedColumns
