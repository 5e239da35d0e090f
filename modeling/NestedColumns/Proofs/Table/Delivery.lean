/-
Rows delivered to the columns of a schema.

The columns may hold any rows that were inserted into them, also rows that contradict each other
(`Columns.AreFilled`). `Columns.IsExtended` says that they hold, besides what they held, given rows at
their ends.

* `Columns.deliver_holding` — rows that fit the leaves of their columns are all taken, in whatever order
  they come.
* `Schema.agrees_direct_staged` — **shredding into the columns and shredding into a buffer cannot be
  told apart**: they end in the same way, with the same rows, and if they succeed this is also what
  committing the buffer leaves.
* `Table.commits_staged` — what was staged is committed as a whole, so no table is ever cut back to the
  rows that it had.
-/

import NestedColumns.Proofs.Column.Filled
import NestedColumns.Proofs.Striping.Conformity
import NestedColumns.Proofs.Table.Log

namespace NestedColumns

/-! ### What a writing leaves -/

namespace Written

/-- The rows of a writing that go to one column, in order. -/
def rowsFor (written : Written) (column : Nat) : List Row :=
  (written.rows.filter (·.1 = column)).map (·.2)

/-- How a writing ends by itself. -/
def result (written : Written) : Except Fault Unit :=
  match written.fault with
  | some fault => .error fault
  | none => .ok ()

/-- A writing of which every row is taken ends by itself. -/
theorem into_eq {Sink : Type} {written : Written} {insert : Sink → Nat → Row → Except Fault Sink}
    {sink taken : Sink} (all : deliver insert written.rows sink = (taken, .ok ())) :
    written.into insert sink = (taken, written.result) := by
  unfold into result
  rw [all]
  cases written.fault <;> rfl

end Written

/-! ### Columns that hold given rows -/

namespace Columns

/-- The columns of a schema after any insertions, in the order of its leaves. -/
def AreFilled (schema : Schema) (columns : List Column) : Prop :=
  List.Forall₂ (fun leaf column => Column.IsFilled schema leaf.id column) schema.leaves columns

/-- **Columns with rows appended**: after all that a column held come the rows given for its position,
and nothing else. -/
structure IsExtended (schema : Schema) (columns longer : List Column) (added : Nat → List Row) :
    Prop where
  filled : AreFilled schema longer
  rows_eq : ∀ position column, columns[position]? = some column →
    ∃ next, longer[position]? = some next ∧ next.rows = column.rows ++ added position

/-- The columns of a schema that hold the given rows. -/
def holding (schema : Schema) (held : Node → List Row) : List Column :=
  schema.leaves.map fun leaf => Column.holding leaf (held leaf)

variable {schema : Schema} {held : Node → List Row}

/-- **A row that fits its leaf is taken**, and only the column of that leaf grows. -/
theorem insert_holding {leaf : Node} {row : Row} (member : leaf ∈ schema.leaves)
    (fits : row.Fits leaf) :
    insert (holding schema held) leaf.column row = .ok (holding schema fun other =>
      if other.column = leaf.column then held other ++ [row] else held other) := by
  have target : (holding schema held)[leaf.column]? = some (Column.holding leaf (held leaf)) := by
    rw [holding, List.getElem?_map, Schema.leaves_getElem?_column member, Option.map_some]
  unfold insert
  rw [target]
  dsimp only
  rw [Column.insert_holding fits]
  refine congrArg Except.ok ?_
  apply List.ext_getElem?
  intro position
  unfold holding
  rw [List.getElem?_set, List.getElem?_map, List.getElem?_map]
  cases found : schema.leaves[position]? with
  | none =>
    have beyond : ¬ leaf.column = position := by
      rintro rfl
      rw [Schema.leaves_getElem?_column member] at found
      cases found
    rw [if_neg beyond]
    rfl
  | some other =>
    have column := Schema.column_of_leaves_getElem? found
    by_cases here : leaf.column = position
    · have same : other = leaf :=
        Schema.eq_of_column_eq member (List.mem_of_getElem? found) (column.trans here.symm)
      have inside : leaf.column < (schema.leaves.map fun leaf =>
          Column.holding leaf (held leaf)).length := by
        rw [List.length_map, here]
        exact (List.getElem?_eq_some_iff.mp found).1
      rw [if_pos here, if_pos inside, Option.map_some, same]
      exact congrArg (fun rows => some (Column.holding leaf rows)) (if_pos rfl).symm
    · have differ : ¬ other.column = leaf.column := fun same => here (same ▸ column)
      rw [if_neg here, Option.map_some, Option.map_some]
      exact congrArg (fun rows => some (Column.holding other rows)) (if_neg differ).symm

/-- **Rows that fit their leaves are all taken**, each at the end of its column. -/
theorem deliver_holding {entries : List (Nat × Row)}
    (fit : ∀ entry ∈ entries, ∃ leaf ∈ schema.leaves, leaf.column = entry.1 ∧ entry.2.Fits leaf) :
    Written.deliver insert entries (holding schema held) =
      (holding schema fun leaf =>
        held leaf ++ (entries.filter (·.1 = leaf.column)).map (·.2), .ok ()) := by
  induction entries generalizing held with
  | nil => simp [Written.deliver]
  | cons entry entries ih =>
    obtain ⟨column, row⟩ := entry
    rw [List.forall_mem_cons] at fit
    obtain ⟨leaf, member, rfl, fits⟩ := fit.1
    rw [Written.deliver, insert_holding member fits]
    dsimp only
    rw [ih fit.2]
    refine congrArg (fun held => (holding schema held, Except.ok ())) (funext fun other => ?_)
    by_cases here : other.column = leaf.column
    · simp [here]
    · simp [here, Ne.symm here]

/-- A column starts without rows. -/
theorem new_eq_holding (accepted : schema.IsAccepted) {leaf : Node} (member : leaf ∈ schema.leaves) :
    Column.new schema leaf.id = .ok (Column.holding leaf []) := by
  unfold Column.new
  rw [accepted.resolve_id (List.mem_of_mem_filter member)]
  exact Column.ofNode_eq_holding (List.mem_filter.mp member).2

/-- The columns that hold rows that fit are filled with them. -/
theorem areFilled_holding (accepted : schema.IsAccepted)
    (fit : ∀ leaf ∈ schema.leaves, ∀ row ∈ held leaf, row.Fits leaf) :
    AreFilled schema (holding schema held) := by
  unfold AreFilled holding
  rw [List.forall₂_map_right_iff, List.forall₂_same]
  intro leaf member
  have filled := (Column.IsFilled.new (new_eq_holding accepted member)).insertAll (held leaf)
  rw [Column.insertAll_holding (fit leaf member), List.nil_append] at filled
  exact filled

/-- **Filled columns hold rows that fit**, those that they show. -/
theorem AreFilled.exists_holding (accepted : schema.IsAccepted) {columns : List Column}
    (filled : AreFilled schema columns) :
    ∃ held, columns = holding schema held ∧
      ∀ leaf ∈ schema.leaves, ∀ row ∈ held leaf, row.Fits leaf := by
  have each : ∀ {position : Nat} {leaf : Node}, schema.leaves[position]? = some leaf →
      ∃ column rows, columns[position]? = some column ∧ column = Column.holding leaf rows ∧
        ∀ row ∈ rows, row.Fits leaf := by
    intro position leaf found
    obtain ⟨column, stored, filled⟩ := exists_getElem?_of_forall₂ filled found
    obtain ⟨leaf', rows, resolved, _, column, fits⟩ := filled.exists_holding
    rw [accepted.resolve_id (List.mem_of_mem_filter (List.mem_of_getElem? found))] at resolved
    cases resolved
    exact ⟨_, rows, stored, column, fits⟩
  refine ⟨fun leaf => ((columns[leaf.column]?).map Column.rows).getD [], ?_, ?_⟩
  · apply List.ext_getElem?
    intro position
    rw [holding, List.getElem?_map]
    cases found : schema.leaves[position]? with
    | none =>
      rw [List.getElem?_eq_none_iff, filled.length_eq] at found
      rw [List.getElem?_eq_none_iff.mpr found, Option.map_none]
    | some leaf =>
      obtain ⟨column, rows, stored, rfl, fits⟩ := each found
      rw [Option.map_some, Schema.column_of_leaves_getElem? found, stored, Option.map_some,
        Option.getD_some, Column.rows_holding fits]
  · intro leaf member
    obtain ⟨column, rows, stored, rfl, fits⟩ := each (Schema.leaves_getElem?_column member)
    dsimp only
    rw [stored, Option.map_some, Option.getD_some, Column.rows_holding fits]
    exact fits

/-- Rows appended that fit. -/
theorem isExtended_holding (accepted : schema.IsAccepted) {added : Nat → List Row}
    (fit : ∀ leaf ∈ schema.leaves, ∀ row ∈ held leaf, row.Fits leaf)
    (fitAdded : ∀ leaf ∈ schema.leaves, ∀ row ∈ added leaf.column, row.Fits leaf) :
    IsExtended schema (holding schema held)
      (holding schema fun leaf => held leaf ++ added leaf.column) added := by
  have fitBoth : ∀ leaf ∈ schema.leaves, ∀ row ∈ held leaf ++ added leaf.column, row.Fits leaf := by
    intro leaf member row among
    rcases List.mem_append.mp among with before | new
    · exact fit leaf member row before
    · exact fitAdded leaf member row new
  refine ⟨areFilled_holding accepted fitBoth, fun position column stored => ?_⟩
  rw [holding, List.getElem?_map] at stored
  obtain ⟨leaf, found, rfl⟩ := Option.map_eq_some_iff.mp stored
  have member := List.mem_of_getElem? found
  refine ⟨_, by rw [holding, List.getElem?_map, found]; rfl, ?_⟩
  rw [Column.rows_holding (fitBoth leaf member), Column.rows_holding (fit leaf member),
    Schema.column_of_leaves_getElem? found]

/-- Columns of documents that hold a row of level 0 each, but for that of the numbers, which refuses
it. -/
def strayRows : List Column :=
  Sample.documentType.leaves.map fun leaf => ((Column.holding leaf []).insertAll [⟨none, 0, 0⟩]).1

theorem areFilled_strayRows : AreFilled Sample.documentType strayRows := by
  unfold AreFilled strayRows
  rw [List.forall₂_map_right_iff, List.forall₂_same]
  intro leaf member
  exact (Column.IsFilled.new (new_eq_holding Sample.documentType_isAccepted member)).insertAll _

end Columns

/-! ### Shredding into a buffer and into columns -/

namespace Schema

variable {schema : Schema}

/-- Whatever record is shredded, the rows for a column fit its leaf. -/
theorem fits_of_mem_rowsFor (record : Record) {leaf : Node} (member : leaf ∈ schema.leaves) :
    ∀ row ∈ (schema.shred record).rowsFor leaf.column, row.Fits leaf := by
  intro row among
  obtain ⟨entry, written, rfl⟩ := List.mem_map.mp among
  obtain ⟨written, here⟩ := List.mem_filter.mp written
  obtain ⟨other, listed, column, fits⟩ := (schema.shred_emits record).fits entry written
  have same := eq_of_column_eq member listed (column.trans (of_decide_eq_true here))
  exact same ▸ fits

/-- A buffer holds the rows of a record, column by column, also of one that is refused. -/
theorem into_staged (schema : Schema) (record : Record) :
    (schema.shred record).into StagedRecord.insert (StagedRecord.new schema.columnCount) =
      (⟨schema.leaves.map fun leaf => (schema.shred record).rowsFor leaf.column⟩,
        (schema.shred record).result) := by
  have each : schema.leaves.map (fun leaf => (schema.shred record).rowsFor leaf.column) =
      (List.range schema.columnCount).map (schema.shred record).rowsFor := by
    rw [← map_column_leaves, List.map_map]
    rfl
  rw [into_stage, each]
  rfl

/-- Every column of a buffer has its rows, and there are none for other columns. -/
theorem rows_staged (record : Record) (position : Nat) :
    StagedRecord.rows ⟨schema.leaves.map fun leaf => (schema.shred record).rowsFor leaf.column⟩
      position = (schema.shred record).rowsFor position := by
  unfold StagedRecord.rows
  rw [List.getElem?_map]
  cases found : schema.leaves[position]? with
  | some leaf => rw [Option.map_some, Option.getD_some, column_of_leaves_getElem? found]
  | none =>
    have elsewhere : ∀ entry ∈ (schema.shred record).rows, ¬ decide (entry.1 = position) = true := by
      intro entry written here
      obtain ⟨leaf, member, column, _⟩ := (schema.shred_emits record).fits entry written
      rw [← of_decide_eq_true here, ← column, leaves_getElem?_column member] at found
      cases found
    unfold Written.rowsFor
    rw [List.filter_eq_nil_iff.mpr elsewhere]
    rfl

/-- The columns take the rows of a record, also of one that is refused. -/
theorem into_columns (record : Record) (held : Node → List Row) :
    (schema.shred record).into Columns.insert (Columns.holding schema held) =
      (Columns.holding schema fun leaf => held leaf ++ (schema.shred record).rowsFor leaf.column,
        (schema.shred record).result) :=
  Written.into_eq (Columns.deliver_holding (schema.shred_emits record).fits)

/-- What staging keeps are the rows that shredding writes. -/
theorem stage_eq_ok_iff_result {record : Record} {staged : StagedRecord} :
    schema.stage record = .ok staged ↔ (schema.shred record).result = .ok () ∧
      staged = ⟨schema.leaves.map fun leaf => (schema.shred record).rowsFor leaf.column⟩ := by
  unfold stage
  rw [into_staged]
  cases (schema.shred record).result with
  | ok done => simp [eq_comm]
  | error fault => simp

/-- Committing the rows of a record appends them to what the columns hold. -/
theorem commit_holding (record : Record) (held : Node → List Row) :
    StagedRecord.commit ⟨schema.leaves.map fun leaf => (schema.shred record).rowsFor leaf.column⟩
      (Columns.holding schema held) =
        (Columns.holding schema fun leaf => held leaf ++ (schema.shred record).rowsFor leaf.column,
          .ok ()) :=
  StagedRecord.commit_map fun _ member => fits_of_mem_rowsFor record member

/-- **Shredding straight into the columns agrees with staging**, on every record and whatever the
columns hold: it ends in the same way as shredding into an empty buffer of the same width, every column
holds what it held and then the rows that the buffer holds for it, and if shredding succeeds, committing
the staged record leaves the same columns. -/
theorem agrees_direct_staged (accepted : schema.IsAccepted) (record : Record) {columns : List Column}
    (filled : Columns.AreFilled schema columns) :
    ∃ staged longer result,
      (schema.shred record).into StagedRecord.insert (StagedRecord.new columns.length) =
        (staged, result) ∧
      (schema.shred record).into Columns.insert columns = (longer, result) ∧
      Columns.IsExtended schema columns longer staged.rows ∧
      (result = .ok () →
        schema.stage record = .ok staged ∧ staged.commit columns = (longer, .ok ())) := by
  obtain ⟨held, rfl, fit⟩ := filled.exists_holding accepted
  have width : (Columns.holding schema held).length = schema.columnCount := by
    rw [Columns.holding, List.length_map, columnCount, leafIds, List.length_map]
  have extended := Columns.isExtended_holding accepted fit fun leaf member =>
    fits_of_mem_rowsFor record member
  refine ⟨_, _, _, ?_, into_columns record held, ?_, fun done => ⟨?_, commit_holding record held⟩⟩
  · rw [width]
    exact into_staged schema record
  · rw [funext (rows_staged record)]
    exact extended
  · exact stage_eq_ok_iff_result.mpr ⟨done, rfl⟩

theorem agrees_brokenDocument :
    Sample.documentType.IsAccepted ∧ Columns.AreFilled Sample.documentType Columns.strayRows ∧
      ∃ staged longer fault,
        (Sample.documentType.shred Sample.brokenDocument).into StagedRecord.insert
          (StagedRecord.new Columns.strayRows.length) = (staged, .error fault) ∧
        (Sample.documentType.shred Sample.brokenDocument).into Columns.insert Columns.strayRows =
          (longer, .error fault) ∧
        Columns.IsExtended Sample.documentType Columns.strayRows longer staged.rows := by
  refine ⟨Sample.documentType_isAccepted, Columns.areFilled_strayRows, ?_⟩
  obtain ⟨staged, longer, result, buffered, direct, extended, _⟩ := agrees_direct_staged
    Sample.documentType_isAccepted Sample.brokenDocument Columns.areFilled_strayRows
  have ended : result = .error (.schemaMismatch "Name.Language.Code" .requiredMissing) :=
    (congrArg Prod.snd buffered).symm.trans rfl
  rw [ended] at buffered direct
  exact ⟨staged, longer, _, buffered, direct, extended⟩

end Schema

/-! ### Committing what was staged -/

namespace Table

variable {schema : Schema}

/-- **Staged records are appended as a whole**, whatever the columns hold. -/
theorem appendStaged_holding {records : List Record} {staged : List StagedRecord}
    (taken : List.Forall₂ (fun record kept => schema.stage record = .ok kept) records staged)
    (held : Node → List Row) :
    appendStaged staged (Columns.holding schema held) =
      (Columns.holding schema fun leaf => held leaf ++ staged.flatMap (·.rows leaf.column),
        .ok ()) := by
  induction taken generalizing held with
  | nil =>
    simp only [List.flatMap_nil, List.append_nil]
    rfl
  | @cons record kept records staged first _ ih =>
    obtain ⟨_, rfl⟩ := Schema.stage_eq_ok_iff_result.mp first
    rw [appendStaged, Schema.commit_holding]
    dsimp only
    rw [ih]
    simp only [List.flatMap_cons, Schema.rows_staged, List.append_assoc]

/-- The columns of a table are filled, whatever calls were made. -/
theorem areFilled_afterCalls (accepted : schema.IsAccepted) {options : TableOptions} {start : Table}
    (made : Table.new schema options = .ok start) (calls : List Call) :
    Columns.AreFilled schema (start.afterCalls calls).columns := by
  have holds := isTableOf_afterCalls made calls
  rw [holds.columns]
  exact Columns.areFilled_holding accepted fun leaf member =>
    Schema.fits_of_mem_log holds.admitted member

/-- **Staged rows are never refused.** Whatever the columns of a schema hold, each takes the rows that
were staged for it, committing a staged record appends exactly these, and committing any number of them
to a table with these columns succeeds, so the table is not cut back. -/
theorem commits_staged (accepted : schema.IsAccepted) {columns : List Column}
    (filled : Columns.AreFilled schema columns) :
    (∀ record staged, schema.stage record = .ok staged →
      (∀ position leaf column, schema.leaves[position]? = some leaf →
        columns[position]? = some column → ∀ row ∈ staged.rows position,
          row.Fits leaf ∧ ∃ longer, column.insert row = .ok (longer, column.size)) ∧
      ∃ longer, staged.commit columns = (longer, .ok ()) ∧
        Columns.IsExtended schema columns longer staged.rows) ∧
    ∀ (records : List Record) staged options size, records.mapM schema.stage = .ok staged →
      ∃ longer, Table.commit ⟨schema, options, columns, size⟩ staged =
          (⟨schema, options, longer, size + staged.length⟩, .ok ()) ∧
        Columns.IsExtended schema columns longer fun position =>
          staged.flatMap (·.rows position) := by
  obtain ⟨held, rfl, fit⟩ := filled.exists_holding accepted
  refine ⟨fun record staged taken => ?_, fun records staged options size taken => ?_⟩
  · obtain ⟨_, rfl⟩ := Schema.stage_eq_ok_iff_result.mp taken
    have fits : ∀ leaf ∈ schema.leaves, ∀ row ∈ (schema.shred record).rowsFor leaf.column,
        row.Fits leaf := fun leaf member => Schema.fits_of_mem_rowsFor record member
    rw [funext (Schema.rows_staged record)]
    refine ⟨fun position leaf column found stored row among => ?_, _,
      Schema.commit_holding record held, Columns.isExtended_holding accepted fit fits⟩
    rw [Columns.holding, List.getElem?_map, found] at stored
    cases stored
    rw [← Schema.column_of_leaves_getElem? found] at among
    have here := fits leaf (List.mem_of_getElem? found) row among
    exact ⟨here, _, by rw [Column.insert_holding here, Column.size_holding]⟩
  · have each := mapM_eq_ok.mp taken
    have fits : ∀ leaf ∈ schema.leaves, ∀ row ∈ staged.flatMap (·.rows leaf.column),
        row.Fits leaf := by
      intro leaf member row among
      obtain ⟨kept, listed, inside⟩ := List.mem_flatMap.mp among
      obtain ⟨record, _, first⟩ := exists_of_mem_of_forall₂ each.flip listed
      obtain ⟨_, rfl⟩ := Schema.stage_eq_ok_iff_result.mp first
      rw [Schema.rows_staged] at inside
      exact Schema.fits_of_mem_rowsFor record member row inside
    refine ⟨_, ?_, Columns.isExtended_holding accepted fit fits⟩
    unfold Table.commit
    rw [appendStaged_holding each]

theorem commits_largeDocument :
    Sample.documentType.IsAccepted ∧ Columns.AreFilled Sample.documentType Columns.strayRows ∧
      ∃ staged longer, Sample.documentType.stage Sample.largeDocument = .ok staged ∧
        staged.commit Columns.strayRows = (longer, .ok ()) ∧
        Columns.IsExtended Sample.documentType Columns.strayRows longer staged.rows := by
  refine ⟨Sample.documentType_isAccepted, Columns.areFilled_strayRows, ?_⟩
  obtain ⟨staged, taken⟩ :
      ∃ staged, Sample.documentType.stage Sample.largeDocument = .ok staged := ⟨_, rfl⟩
  have commits := commits_staged Sample.documentType_isAccepted Columns.areFilled_strayRows
  obtain ⟨_, longer, committed, extended⟩ := commits.1 Sample.largeDocument staged taken
  exact ⟨staged, longer, taken, committed, extended⟩

end Table

end NestedColumns
