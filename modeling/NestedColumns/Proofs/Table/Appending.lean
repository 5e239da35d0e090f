/-
Adding to a table.

A column grows by the rows of records (`Column.Grows`): they come to its end, record after record, and
the first row of each is indexed. A table grows by staged records (`Table.Grows`) if all its columns do
and its size counts them.

* `IsTableOf.isAtomic` — a call that is accepted makes the table grow by the records it brings, and any
  other call changes nothing.
* `IsTableOf.isFilledBy` — so whole runs make an empty table grow by the log of the accepted records.
* `appends_log` — hence the columns depend on the log alone.
-/

import NestedColumns.Proofs.Table.Log

namespace NestedColumns

/-! ### Growing -/

/-- **A column grows by the rows of some records.** -/
structure Column.Grows (column : Column) (records : List (List Row)) (longer : Column) : Prop where
  field_eq : longer.field = column.field
  size_eq : longer.size = column.size + records.flatten.length
  rows_eq : longer.rows = column.rows ++ records.flatten
  /-- Each record starts behind the rows of those before it. -/
  recordStarts_eq : longer.recordStarts.toList = column.recordStarts.toList ++
    (List.range records.length).map fun index =>
      column.size + (records.take index).flatten.length

/-- **A table grows by staged records**: every column by the rows that are staged for it. -/
structure Table.Grows (table : Table) (staged : List StagedRecord) (longer : Table) : Prop where
  schema_eq : longer.schema = table.schema
  size_eq : longer.size = table.size + staged.length
  columnCount_eq : longer.columns.length = table.columns.length
  columns : ∀ (position : Nat) (column : Column), table.columns[position]? = some column →
    ∃ next, longer.columns[position]? = some next ∧
      column.Grows (staged.map (·.rows position)) next

theorem Column.grows_holding {leaf : Node} {rows : List Row} {records : List (List Row)}
    (fits : ∀ row ∈ rows ++ records.flatten, row.Fits leaf)
    (each : ∀ record ∈ records, IsRecord record) :
    (holding leaf rows).Grows records (holding leaf (rows ++ records.flatten)) where
  field_eq := rfl
  size_eq := by simp
  rows_eq := by
    rw [rows_holding fits, rows_holding fun row member => fits row (List.mem_append_left _ member)]
  recordStarts_eq := by
    show (rows ++ records.flatten).findIdxs (·.repetition = 0) =
      rows.findIdxs (·.repetition = 0) ++ _
    rw [List.findIdxs_append, Nat.zero_add, findIdxs_records_eq _ each, size_holding]

namespace Table

/-- Adding to a table is atomic: a call succeeds, from the number of records of the table on, exactly
if every record of it can be staged. Then the table grows by what is staged, and otherwise the call
fails with a mismatch and changes nothing. -/
structure IsAtomic (schema : Schema) (table : Table) : Prop where
  insert_iff : ∀ record, (table.insert record).2 = .ok table.size ↔
    ∃ staged, schema.stage record = .ok staged
  insert_grows : ∀ record staged, schema.stage record = .ok staged →
    table.Grows [staged] (table.insert record).1
  insert_else : ∀ record, (table.insert record).2 ≠ .ok table.size →
    ∃ path reason, table.insert record = (table, .error (.schemaMismatch path reason))
  insertBatch_iff : ∀ records,
    (table.insertBatch records).2 = .ok (table.size, table.size + records.length) ↔
      ∀ record ∈ records, ∃ staged, schema.stage record = .ok staged
  insertBatch_grows : ∀ records staged, records.mapM schema.stage = .ok staged →
    table.Grows staged (table.insertBatch records).1
  insertBatch_else : ∀ records,
    (table.insertBatch records).2 ≠ .ok (table.size, table.size + records.length) →
      ∃ path reason, table.insertBatch records = (table, .error (.schemaMismatch path reason))

/-- A table without rows: one column for each leaf. -/
structure IsEmptyOf (schema : Schema) (table : Table) : Prop where
  schema_eq : table.schema = schema
  size_eq : table.size = 0
  fields_eq : table.columns.map (·.field) = schema.leafIds
  column : ∀ column ∈ table.columns, column.size = 0 ∧ column.recordCount = 0

/-- **Calls fill a table** with the records that they bring, but for those of a call of which one
cannot be staged. -/
structure IsFilledBy (schema : Schema) (start : Table) (calls : List Call) : Prop where
  log_eq : start.log calls = calls.flatMap (Call.taken schema)
  size_eq : (start.afterCalls calls).size = (start.log calls).length
  grows : ∃ staged, (start.log calls).mapM schema.stage = .ok staged ∧
    start.Grows staged (start.afterCalls calls)

variable {schema : Schema} {log records : List Record} {table longer : Table}

/-- A table whose log gets longer grows by what is staged of the further records. -/
theorem IsTableOf.grows (holds : IsTableOf schema log table)
    (longerHolds : IsTableOf schema (log ++ records) longer) :
    table.Grows (records.map fun record => ⟨schema.leaves.map (schema.rowsOf record)⟩) longer where
  schema_eq := longerHolds.schema_eq.trans holds.schema_eq.symm
  size_eq := by rw [longerHolds.size, holds.size, List.length_append, List.length_map]
  columnCount_eq := by
    rw [longerHolds.columns, holds.columns, Schema.columnsOf, Schema.columnsOf, List.length_map,
      List.length_map]
  columns := by
    intro position column stored
    rw [holds.columns, Schema.columnsOf, List.getElem?_map, Option.map_eq_some_iff] at stored
    obtain ⟨leaf, found, rfl⟩ := stored
    have member := List.mem_of_getElem? found
    have admitted : ∀ record ∈ records, schema.Admits record :=
      fun record new => longerHolds.admitted record (List.mem_append_right log new)
    have fits := Schema.fits_of_mem_log longerHolds.admitted member
    have each : ∀ rows ∈ records.map fun record => schema.rowsOf record leaf,
        Column.IsRecord rows := by
      intro rows among
      obtain ⟨record, new, rfl⟩ := List.mem_map.mp among
      exact Schema.isRecord_rowsOf (admitted record new) member
    have staged : (records.map fun record =>
          (⟨schema.leaves.map (schema.rowsOf record)⟩ : StagedRecord)).map (·.rows position) =
        records.map fun record => schema.rowsOf record leaf := by
      rw [List.map_map]
      refine List.map_congr_left fun record new => ?_
      exact Schema.rows_of_stage (Schema.stage_eq_ok (admitted record new)) found
    rw [List.map_append, List.flatten_append] at fits
    rw [staged]
    refine ⟨_, ?_, Column.grows_holding fits each⟩
    rw [longerHolds.columns, Schema.columnsOf, List.getElem?_map, found, Option.map_some,
      List.map_append, List.flatten_append]

/-! ### One call -/

/-- What is taken if it may be, and otherwise refused without a change, is taken exactly if it may be. -/
theorem taken_iff_and_else {α : Type} {allowed : Prop} {result : Table × Except Fault α} {value : α}
    (taken : allowed → result.2 = .ok value)
    (refused : ¬ allowed →
      ∃ path reason, result = (table, .error (.schemaMismatch path reason))) :
    (result.2 = .ok value ↔ allowed) ∧
      (result.2 ≠ .ok value →
        ∃ path reason, result = (table, .error (.schemaMismatch path reason))) := by
  by_cases holds : allowed
  · exact ⟨iff_of_true (taken holds) holds, fun notTaken => absurd (taken holds) notTaken⟩
  · obtain ⟨path, reason, failed⟩ := refused holds
    refine ⟨iff_of_false ?_ holds, fun _ => ⟨path, reason, failed⟩⟩
    simp [failed]

theorem IsTableOf.insert_iff_and_else (holds : IsTableOf schema log table) (record : Record) :
    ((table.insert record).2 = .ok table.size ↔ schema.Admits record) ∧
      ((table.insert record).2 ≠ .ok table.size →
        ∃ path reason, table.insert record = (table, .error (.schemaMismatch path reason))) := by
  refine taken_iff_and_else (fun admitted => ?_) holds.insert_refused
  obtain ⟨longer, taken, _⟩ := holds.insert admitted
  rw [taken]

theorem IsTableOf.insertBatch_iff_and_else (holds : IsTableOf schema log table)
    (records : List Record) :
    ((table.insertBatch records).2 = .ok (table.size, table.size + records.length) ↔
        ∀ record ∈ records, schema.Admits record) ∧
      ((table.insertBatch records).2 ≠ .ok (table.size, table.size + records.length) →
        ∃ path reason,
          table.insertBatch records = (table, .error (.schemaMismatch path reason))) := by
  refine taken_iff_and_else (fun admitted => ?_) holds.insertBatch_refused
  obtain ⟨longer, taken, _⟩ := holds.insertBatch admitted
  rw [taken]

/-- **Every call is atomic.** -/
theorem IsTableOf.isAtomic (holds : IsTableOf schema log table) : IsAtomic schema table where
  insert_iff := by
    intro record
    rw [Schema.exists_stage_iff]
    exact (holds.insert_iff_and_else record).1
  insert_grows := by
    intro record staged accepted
    obtain ⟨admitted, rfl⟩ := Schema.stage_eq_ok_iff.mp accepted
    obtain ⟨longer, taken, longerHolds⟩ := holds.insert admitted
    rw [taken]
    exact holds.grows longerHolds
  insert_else := fun record => (holds.insert_iff_and_else record).2
  insertBatch_iff := by
    intro records
    simp only [Schema.exists_stage_iff]
    exact (holds.insertBatch_iff_and_else records).1
  insertBatch_grows := by
    intro records staged accepted
    obtain ⟨admitted, rfl⟩ := Schema.mapM_stage_eq_ok_iff.mp accepted
    obtain ⟨longer, taken, longerHolds⟩ := holds.insertBatch admitted
    rw [taken]
    exact holds.grows longerHolds
  insertBatch_else := fun records => (holds.insertBatch_iff_and_else records).2

/-! ### Any calls -/

theorem isEmptyOf_new {options : TableOptions} {start : Table}
    (made : Table.new schema options = .ok start) : IsEmptyOf schema start := by
  rw [new_eq_ok] at made
  obtain rfl := Except.ok.inj made
  refine ⟨rfl, rfl, ?_, ?_⟩
  · simp [Schema.columnsOf, Schema.leafIds]
  · intro column member
    obtain ⟨leaf, _, rfl⟩ := List.mem_map.mp member
    exact ⟨rfl, rfl⟩

/-- **A run makes a table grow by its log.** -/
theorem isFilledBy_afterCalls {options : TableOptions} {start : Table}
    (made : Table.new schema options = .ok start) (calls : List Call) :
    IsFilledBy schema start calls := by
  have empty : IsTableOf schema [] start := isTableOf_afterCalls made []
  have holds : IsTableOf schema (start.log calls) (start.afterCalls calls) :=
    isTableOf_afterCalls made calls
  exact ⟨empty.log_eq calls, holds.size, _, Schema.mapM_stage_eq_ok_iff.mpr ⟨holds.admitted, rfl⟩,
    empty.grows holds⟩

/-- **The table is an append-only log of accepted records.** In every state it can reach, adding to
it is atomic, and it holds the records that were accepted, in order, and nothing else. So its columns
depend on its log alone, not on how the records were split into calls nor on calls that failed. -/
theorem appends_log (schema : Schema) (options : TableOptions) :
    ∃ start, Table.new schema options = .ok start ∧ IsEmptyOf schema start ∧
      (∀ calls, IsAtomic schema (start.afterCalls calls) ∧ IsFilledBy schema start calls) ∧
      ∀ calls calls', start.log calls = start.log calls' →
        (start.afterCalls calls).columns = (start.afterCalls calls').columns := by
  have made := new_eq_ok schema options
  refine ⟨_, made, isEmptyOf_new made, fun calls => ?_, fun calls calls' same => ?_⟩
  · exact ⟨(isTableOf_afterCalls made calls).isAtomic, isFilledBy_afterCalls made calls⟩
  · rw [(isTableOf_afterCalls made calls).columns, (isTableOf_afterCalls made calls').columns, same]

/-- Two documents, one by one or at once, with an empty record refused in between. -/
theorem appends_log_twoDocuments :
    ∃ start split batch, Table.new Sample.documentType {} = .ok start ∧
      split = start.afterCalls [.insert Sample.largeDocument,
        .insertBatch [Sample.smallDocument, .empty], .insert .empty, .insert Sample.smallDocument] ∧
      batch = start.afterCalls [.insertBatch [Sample.largeDocument, Sample.smallDocument]] ∧
      split.columns = batch.columns ∧ split.size = 2 ∧
      ∃ staged, [Sample.largeDocument, Sample.smallDocument].mapM Sample.documentType.stage =
          .ok staged ∧
        start.Grows staged split := by
  obtain ⟨start, made, _, each, same⟩ := appends_log Sample.documentType {}
  have split := (each [.insert Sample.largeDocument, .insertBatch [Sample.smallDocument, .empty],
    .insert .empty, .insert Sample.smallDocument]).2
  have batch := (each [.insertBatch [Sample.largeDocument, Sample.smallDocument]]).2
  have logged : start.log [.insert Sample.largeDocument, .insertBatch [Sample.smallDocument, .empty],
      .insert .empty, .insert Sample.smallDocument] = [Sample.largeDocument, Sample.smallDocument] :=
    split.log_eq.trans rfl
  obtain ⟨staged, accepted, grows⟩ := split.grows
  have size := split.size_eq
  rw [logged] at accepted size
  refine ⟨start, _, _, made, rfl, rfl, same _ _ ?_, size, staged, accepted, grows⟩
  exact logged.trans (batch.log_eq.trans rfl).symm

end Table

end NestedColumns
