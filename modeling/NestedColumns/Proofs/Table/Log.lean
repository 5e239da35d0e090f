/-
The table as a log.

A table is filled by calls that insert single records and batches. `Table.log` lists the records
whose calls succeed, in order; `Schema.columnsOf` are the columns that hold a list of records.

* `Schema.appendStaged_eq` — appending the staged rows of admitted records to such columns never
  stops half-way, and gives the columns of the longer list.
* `IsTableOf.insert`, `IsTableOf.insertBatch` — one call either takes all its records or, with a
  mismatch, changes nothing.
* `isTableOf_afterCalls` — after any calls, a table holds its log and nothing else.
* `IsTableOf.log_eq` — its log are the records of those calls of which every record can be staged.
-/

import NestedColumns.Proofs.Column.Holding
import NestedColumns.Table.Basic

namespace NestedColumns

/-! ### The columns of a list of records -/

theorem Columns.appendEach_map {rowsOf held : Node → List Row} {leaves : List Node}
    (fit : ∀ leaf ∈ leaves, ∀ row ∈ rowsOf leaf, row.Fits leaf) :
    Columns.appendEach (leaves.map rowsOf)
      (leaves.map fun leaf => Column.holding leaf (held leaf)) =
        (leaves.map fun leaf => Column.holding leaf (held leaf ++ rowsOf leaf), .ok ()) := by
  induction leaves with
  | nil => rfl
  | cons leaf leaves ih =>
    rw [List.forall_mem_cons] at fit
    rw [List.map_cons, List.map_cons, Columns.appendEach, Column.insertAll_holding fit.1]
    dsimp only
    rw [ih fit.2]
    rfl

/-- Rows that fit their columns are committed as a whole. -/
theorem StagedRecord.commit_map {rowsOf held : Node → List Row} {leaves : List Node}
    (fit : ∀ leaf ∈ leaves, ∀ row ∈ rowsOf leaf, row.Fits leaf) :
    StagedRecord.commit ⟨leaves.map rowsOf⟩
      (leaves.map fun leaf => Column.holding leaf (held leaf)) =
        (leaves.map fun leaf => Column.holding leaf (held leaf ++ rowsOf leaf), .ok ()) := by
  have widths : StagedRecord.columnCount ⟨leaves.map rowsOf⟩ =
      (leaves.map fun leaf => Column.holding leaf (held leaf)).length := by
    simp [StagedRecord.columnCount]
  rw [StagedRecord.commit, if_pos widths]
  exact Columns.appendEach_map fit

namespace Schema

variable {schema : Schema}

/-- The rows of a record in the column of a leaf. -/
def rowsOf (schema : Schema) (record : Record) (leaf : Node) : List Row :=
  rowsAt leaf.column (schema.visits record)

/-- The columns that hold a list of records. -/
def columnsOf (schema : Schema) (log : List Record) : List Column :=
  schema.leaves.map fun leaf =>
    Column.holding leaf (log.map fun record => schema.rowsOf record leaf).flatten

theorem fits_of_mem_rowsOf {record : Record} (admitted : schema.Admits record) {leaf : Node}
    (member : leaf ∈ schema.leaves) : ∀ row ∈ schema.rowsOf record leaf, row.Fits leaf := by
  intro row among
  obtain ⟨visit, visited, rfl⟩ := List.mem_map.mp among
  obtain ⟨visited, here⟩ := List.mem_filter.mp visited
  have below : visit.1 ∈ schema.leaves := Field.mem_leaves_of_mem_visitsAll visited
  rw [← eq_of_column_eq member below (of_decide_eq_true here)]
  exact (Field.fits_of_mem_visitsAll (admitsAll_of_admits admitted) (Nat.zero_le _) visited).1

/-- The rows of admitted records, one record after the other. -/
theorem fits_of_mem_log {log : List Record} (admitted : ∀ record ∈ log, schema.Admits record)
    {leaf : Node} (member : leaf ∈ schema.leaves) :
    ∀ row ∈ (log.map fun record => schema.rowsOf record leaf).flatten, row.Fits leaf := by
  intro row among
  obtain ⟨rows, listed, inside⟩ := List.mem_flatten.mp among
  obtain ⟨record, logged, rfl⟩ := List.mem_map.mp listed
  exact fits_of_mem_rowsOf (admitted record logged) member row inside

/-- The rows of an admitted record start the record once in every column. -/
theorem isRecord_rowsOf {record : Record} (admitted : schema.Admits record) {leaf : Node}
    (member : leaf ∈ schema.leaves) : Column.IsRecord (schema.rowsOf record leaf) :=
  Field.startsAt_visitsAll 0 record member (admitsAll_of_admits admitted)

theorem commit_columnsOf {record : Record} (admitted : schema.Admits record) (log : List Record) :
    StagedRecord.commit ⟨schema.leaves.map (schema.rowsOf record)⟩ (schema.columnsOf log) =
      (schema.columnsOf (log ++ [record]), .ok ()) := by
  rw [columnsOf, StagedRecord.commit_map fun leaf member => fits_of_mem_rowsOf admitted member]
  simp [columnsOf]

/-- **Appending the rows of admitted records never stops half-way.** -/
theorem appendStaged_eq {records : List Record} (admitted : ∀ record ∈ records, schema.Admits record)
    (log : List Record) :
    Table.appendStaged (records.map fun record => ⟨schema.leaves.map (schema.rowsOf record)⟩)
      (schema.columnsOf log) = (schema.columnsOf (log ++ records), .ok ()) := by
  induction records generalizing log with
  | nil =>
    rw [List.append_nil]
    rfl
  | cons record records ih =>
    rw [List.forall_mem_cons] at admitted
    rw [List.map_cons, Table.appendStaged, commit_columnsOf admitted.1]
    dsimp only
    rw [ih admitted.2, List.append_assoc, List.singleton_append]

/-- A record can be staged exactly if the schema admits it. -/
theorem exists_stage_iff {record : Record} :
    (∃ staged, schema.stage record = .ok staged) ↔ schema.Admits record := by
  constructor
  · rintro ⟨staged, accepted⟩
    exact (stage_eq_ok_iff.mp accepted).1
  · exact fun admitted => ⟨_, stage_eq_ok admitted⟩

/-- Several records can be staged exactly if the schema admits all of them. -/
theorem mapM_stage_eq_ok_iff {records : List Record} {staged : List StagedRecord} :
    records.mapM schema.stage = .ok staged ↔
      (∀ record ∈ records, schema.Admits record) ∧
        staged = records.map fun record => ⟨schema.leaves.map (schema.rowsOf record)⟩ := by
  have all : (∀ record ∈ records, schema.Admits record) → records.mapM schema.stage =
      .ok (records.map fun record => ⟨schema.leaves.map (schema.rowsOf record)⟩) :=
    fun admitted => mapM_eq_map fun record member => stage_eq_ok (admitted record member)
  constructor
  · intro taken
    have admitted : ∀ record ∈ records, schema.Admits record := by
      intro record member
      obtain ⟨_, _, accepted⟩ := exists_of_mem_of_mapM taken member
      exact (stage_eq_ok_iff.mp accepted).1
    rw [all admitted] at taken
    exact ⟨admitted, (Except.ok.inj taken).symm⟩
  · rintro ⟨admitted, rfl⟩
    exact all admitted

end Schema

namespace Table

/-! ### One call -/

/-- A table that holds the given records and nothing else. -/
structure IsTableOf (schema : Schema) (log : List Record) (table : Table) : Prop where
  schema_eq : table.schema = schema
  admitted : ∀ record ∈ log, schema.Admits record
  columns : table.columns = schema.columnsOf log
  size : table.size = log.length

section Calls

variable {schema : Schema} {log : List Record} {table : Table}

theorem new_eq_ok (schema : Schema) (options : TableOptions) :
    Table.new schema options = .ok ⟨schema, options, schema.columnsOf [], 0⟩ := by
  have columns : schema.leaves.mapM Column.ofNode = .ok (schema.columnsOf []) :=
    mapM_eq_map fun leaf member => Column.ofNode_eq_holding (List.mem_filter.mp member).2
  unfold new
  rw [columns]
  rfl

/-- Admitted records are appended as a whole. -/
theorem IsTableOf.commit (holds : IsTableOf schema log table) {records : List Record}
    (admitted : ∀ record ∈ records, schema.Admits record) :
    ∃ longer, table.commit (records.map fun record => ⟨schema.leaves.map (schema.rowsOf record)⟩) =
        (longer, .ok ()) ∧
      IsTableOf schema (log ++ records) longer := by
  have appended := Schema.appendStaged_eq admitted log
  rw [← holds.columns] at appended
  unfold Table.commit
  rw [appended]
  refine ⟨_, rfl, holds.schema_eq, ?_, rfl, ?_⟩
  · intro record member
    rcases List.mem_append.mp member with before | new
    · exact holds.admitted record before
    · exact admitted record new
  · simp [holds.size]

/-- **Inserting a record** appends it if the schema admits it. -/
theorem IsTableOf.insert (holds : IsTableOf schema log table) {record : Record}
    (admitted : schema.Admits record) :
    ∃ longer, table.insert record = (longer, .ok table.size) ∧
      IsTableOf schema (log ++ [record]) longer := by
  have each : ∀ other ∈ [record], schema.Admits other := by simpa using admitted
  obtain ⟨longer, committed, longerHolds⟩ := holds.commit each
  refine ⟨longer, ?_, longerHolds⟩
  have staged : table.schema.stage record = .ok ⟨schema.leaves.map (schema.rowsOf record)⟩ := by
    rw [holds.schema_eq]
    exact Schema.stage_eq_ok admitted
  unfold Table.insert
  rw [staged]
  dsimp only
  rw [List.map_singleton] at committed
  rw [committed]
  rfl

theorem IsTableOf.insert_refused (holds : IsTableOf schema log table) {record : Record}
    (refused : ¬ schema.Admits record) :
    ∃ path reason, table.insert record = (table, .error (.schemaMismatch path reason)) := by
  obtain ⟨path, reason, failed⟩ := Schema.stage_eq_error refused
  refine ⟨path, reason, ?_⟩
  unfold Table.insert
  rw [holds.schema_eq, failed]

/-- **Inserting a batch** appends all its records if the schema admits all of them. -/
theorem IsTableOf.insertBatch (holds : IsTableOf schema log table) {records : List Record}
    (admitted : ∀ record ∈ records, schema.Admits record) :
    ∃ longer, table.insertBatch records =
        (longer, .ok (table.size, table.size + records.length)) ∧
      IsTableOf schema (log ++ records) longer := by
  obtain ⟨longer, committed, longerHolds⟩ := holds.commit admitted
  refine ⟨longer, ?_, longerHolds⟩
  have staged : records.mapM table.schema.stage =
      .ok (records.map fun record => ⟨schema.leaves.map (schema.rowsOf record)⟩) := by
    rw [holds.schema_eq]
    exact Schema.mapM_stage_eq_ok_iff.mpr ⟨admitted, rfl⟩
  have size : longer.size = table.size + records.length := by
    rw [longerHolds.size, holds.size, List.length_append]
  unfold Table.insertBatch
  rw [staged]
  dsimp only
  rw [committed]
  exact congrArg (fun stop => (longer, Except.ok (table.size, stop))) size

theorem IsTableOf.insertBatch_refused (holds : IsTableOf schema log table) {records : List Record}
    (refused : ¬ ∀ record ∈ records, schema.Admits record) :
    ∃ path reason, table.insertBatch records = (table, .error (.schemaMismatch path reason)) := by
  cases mapped : records.mapM schema.stage with
  | ok staged => exact absurd (Schema.mapM_stage_eq_ok_iff.mp mapped).1 refused
  | error fault =>
    obtain ⟨record, member, failed⟩ := mapM_eq_error mapped
    have refusedOne : ¬ schema.Admits record := by
      intro admitted
      rw [Schema.stage_eq_ok admitted] at failed
      cases failed
    obtain ⟨path, reason, mismatch⟩ := Schema.stage_eq_error refusedOne
    rw [mismatch] at failed
    cases failed
    refine ⟨path, reason, ?_⟩
    unfold Table.insertBatch
    rw [holds.schema_eq, mapped]

end Calls

/-! ### Any calls -/

/-- A call that adds records. -/
inductive Call where
  | insert (record : Record)
  | insertBatch (records : List Record)

def Call.records : Call → List Record
  | .insert record => [record]
  | .insertBatch records => records

/-- The records of a call if every one of them can be staged, and none otherwise. -/
def Call.taken (schema : Schema) (call : Call) : List Record :=
  match call.records.mapM schema.stage with
  | .ok _ => call.records
  | .error _ => []

/-- The table after a call, and from which index on the records of the call are if it succeeds. -/
def call (table : Table) : Call → Table × Except Fault Nat
  | .insert record => table.insert record
  | .insertBatch records =>
    let (longer, result) := table.insertBatch records
    (longer, result.map (·.1))

def afterCalls (table : Table) (calls : List Call) : Table :=
  calls.foldl (fun table call => (table.call call).1) table

/-- The records of the calls that succeed, in order. -/
def log : Table → List Call → List Record
  | _, [] => []
  | table, call :: calls =>
    match table.call call with
    | (longer, .ok _) => call.records ++ longer.log calls
    | (same, .error _) => same.log calls

section Runs

variable {schema : Schema} {held : List Record} {table : Table}

/-- A call appends all its records to the log of a table if the schema admits them, and otherwise
none. -/
theorem IsTableOf.call (holds : IsTableOf schema held table) (call : Call) :
    ((∀ record ∈ call.records, schema.Admits record) ∧
      ∃ longer, table.call call = (longer, .ok table.size) ∧
        IsTableOf schema (held ++ call.records) longer) ∨
    (¬ ∀ record ∈ call.records, schema.Admits record) ∧
      ∃ fault, table.call call = (table, .error fault) := by
  cases call with
  | insert record =>
    have only : (∀ other ∈ (Call.insert record).records, schema.Admits other) ↔
        schema.Admits record := List.forall_mem_singleton
    rw [only]
    by_cases admitted : schema.Admits record
    · exact .inl ⟨admitted, holds.insert admitted⟩
    · obtain ⟨path, reason, refused⟩ := holds.insert_refused admitted
      exact .inr ⟨admitted, _, refused⟩
  | insertBatch records =>
    by_cases admitted : ∀ record ∈ records, schema.Admits record
    · obtain ⟨longer, taken, longerHolds⟩ := holds.insertBatch admitted
      refine .inl ⟨admitted, longer, ?_, longerHolds⟩
      rw [Table.call, taken]
      rfl
    · obtain ⟨path, reason, refused⟩ := holds.insertBatch_refused admitted
      refine .inr ⟨admitted, .schemaMismatch path reason, ?_⟩
      rw [Table.call, refused]
      rfl

/-- **After any calls, a table holds its log and nothing else.** -/
theorem IsTableOf.afterCalls (holds : IsTableOf schema held table) (calls : List Call) :
    IsTableOf schema (held ++ table.log calls) (table.afterCalls calls) := by
  induction calls generalizing held table with
  | nil =>
    rw [Table.log, List.append_nil]
    exact holds
  | cons call calls ih =>
    rw [Table.log, Table.afterCalls, List.foldl_cons]
    rcases holds.call call with ⟨_, longer, taken, longerHolds⟩ | ⟨_, fault, refused⟩
    · rw [taken]
      dsimp only
      rw [← List.append_assoc]
      exact ih longerHolds
    · rw [refused]
      exact ih holds

theorem isTableOf_afterCalls {options : TableOptions} {start : Table}
    (made : Table.new schema options = .ok start) (calls : List Call) :
    IsTableOf schema (start.log calls) (start.afterCalls calls) := by
  rw [new_eq_ok] at made
  cases made
  have empty : IsTableOf schema [] ⟨schema, options, schema.columnsOf [], 0⟩ :=
    { schema_eq := rfl
      admitted := by simp
      columns := rfl
      size := rfl }
  exact empty.afterCalls calls

theorem Call.taken_of_admits {call : Call}
    (admitted : ∀ record ∈ call.records, schema.Admits record) :
    call.taken schema = call.records := by
  unfold Call.taken
  rw [Schema.mapM_stage_eq_ok_iff.mpr ⟨admitted, rfl⟩]

theorem Call.taken_of_refused {call : Call}
    (refused : ¬ ∀ record ∈ call.records, schema.Admits record) : call.taken schema = [] := by
  unfold Call.taken
  cases mapped : call.records.mapM schema.stage with
  | ok staged => exact absurd (Schema.mapM_stage_eq_ok_iff.mp mapped).1 refused
  | error fault => rfl

/-- **The log of a table** are the records of those calls of which every record can be staged. -/
theorem IsTableOf.log_eq (holds : IsTableOf schema held table) (calls : List Call) :
    table.log calls = calls.flatMap (Call.taken schema) := by
  induction calls generalizing held table with
  | nil => rfl
  | cons call calls ih =>
    rw [Table.log, List.flatMap_cons]
    rcases holds.call call with ⟨admitted, longer, taken, longerHolds⟩ | ⟨refused, fault, failed⟩
    · rw [taken, Call.taken_of_admits admitted]
      exact congrArg (call.records ++ ·) (ih longerHolds)
    · rw [failed, Call.taken_of_refused refused]
      exact ih holds

end Runs

end Table

end NestedColumns
