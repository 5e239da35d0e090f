/-
Tables whose columns have lost records at the end.

If of each selected column only the first records are left, not as many of each, then the records that
are left in every one of these columns are still read, and the next one is found to be missing
(`toList_shortened`). This does not go without saying: the end of a column looks like the start of the
next record, so a short column only shows when a row of it is asked for.

* `IsTableOf.shortReaders_eq` — a shortened column is the column of a shorter log;
* `exists_visit` — every record has a row in every column, so it cannot do without the missing ones;
* `exists_toList_shortened` — a stream delivers whole records as long as all columns have them.
-/

import NestedColumns.Proofs.Assembly.Ended
import NestedColumns.Proofs.Table.Reading

namespace NestedColumns

/-- The column with the rows of its first records only. -/
def Column.firstRecords (column : Column) (count : Nat) : Column :=
  column.truncate ((column.recordStart? count).getD column.size)

/-- **The first records of a column** are the column of the first records. -/
theorem Column.firstRecords_holding {leaf : Node} {records : List (List Row)}
    (each : ∀ rows ∈ records, Column.IsRecord rows) (count : Nat) :
    (Column.holding leaf records.flatten).firstRecords count =
      Column.holding leaf (records.take count).flatten := by
  unfold firstRecords
  rw [truncate_holding, recordStart?_holding_eq each, size_holding]
  by_cases inside : count < records.length
  · have parts := congrArg List.flatten (List.take_append_drop count records)
    rw [List.flatten_append] at parts
    rw [if_pos inside, Option.getD_some, ← parts, List.take_left]
  · rw [if_neg inside, Option.getD_none, List.take_length,
      List.take_of_length_le (Nat.le_of_not_lt inside)]

namespace Table

open Assembly

/-- Readers before the columns of a machine, each cut back to as many records as `kept` says. -/
def shortReaders (table : Table) (machine : Machine) (kept : FieldId → Nat) :
    Except Fault (List Reader) :=
  machine.fields.mapM fun field => do
    let column ← table.column field
    return Reader.mk (column.firstRecords (kept field)) 0

/-- The least number of records that is kept of a selected column. -/
structure IsLeastKept (projection : Projection) (kept : FieldId → Nat) (least : Nat) : Prop where
  reached : ∃ field ∈ projection.fields, kept field = least
  le : ∀ field ∈ projection.fields, least ≤ kept field

/-- What a stream of `total` records yields behind the `least` ones that all columns have: nothing if
these are all, and otherwise one underrun of a column that has no more. -/
inductive EndsWith (schema : Schema) (projection : Projection) (kept : FieldId → Nat)
    (least total : Nat) : List (Except Fault Record) → Prop
  | whole (all : least = total) : EndsWith schema projection kept least total []
  | short (fewer : least < total) {leaf : Node} (member : leaf ∈ projection.selected schema)
      (shortest : kept leaf.id = least) (size : Nat) :
      EndsWith schema projection kept least total
        [.error (.storeUnderrun leaf.pathText size size)]

variable {schema : Schema} {log : List Record} {table : Table} {record : Record} {index : Nat}
  {leaf : Node} {projection : Projection} {kept : FieldId → Nat} {least : Nat}

/-! ### Shortened columns -/

/-- **A shortened column is the column of a shorter log.** -/
theorem IsTableOf.shortReaders_eq (holds : IsTableOf schema log table) (accepted : schema.IsAccepted)
    (kept : FieldId → Nat) :
    table.shortReaders (Machine.ofLeaves (projection.selected schema)) kept =
      .ok ((projection.selected schema).map fun leaf =>
        readerAt schema (log.take (kept leaf.id)) 0 leaf) := by
  unfold shortReaders
  rw [Machine.fields_ofLeaves, mapM_eq_ok, List.forall₂_map_left_iff, List.forall₂_map_right_iff,
    List.forall₂_same]
  intro leaf member
  have isLeaf : leaf ∈ schema.leaves := List.mem_of_mem_filter member
  have each : ∀ rows ∈ log.map fun record => schema.rowsOf record leaf, Column.IsRecord rows := by
    intro rows among
    obtain ⟨record, logged, rfl⟩ := List.mem_map.mp among
    exact Schema.isRecord_rowsOf (holds.admitted record logged) isLeaf
  refine bind_eq_ok.mpr ⟨_, holds.column_eq accepted isLeaf, ?_⟩
  rw [Column.firstRecords_holding each, ← List.map_take]
  rfl

/-- Behind all records of a log its reader stands at the end of the column. -/
theorem ended_readerAt (schema : Schema) (leaf : Node) (within : log.length ≤ index) :
    Ended leaf (readerAt schema log index leaf) where
  stands := by
    refine ⟨_, congrArg (Reader.mk _) ?_⟩
    rw [List.take_of_length_le (by simpa using within)]

/-- Every record has a row in the column of every selected leaf. -/
theorem exists_visit (admits : schema.Admits record) (member : leaf ∈ projection.selected schema) :
    ∃ visit ∈ pick (projection.chosen schema) (schema.visits record), visit.1 = leaf := by
  have isLeaf : leaf ∈ schema.leaves := List.mem_of_mem_filter member
  have rows := Schema.isRecord_rowsOf admits isLeaf
  have some : rowsAt leaf.column (schema.visits record) ≠ [] := by
    intro none
    rw [Schema.rowsOf, none] at rows
    cases rows
  obtain ⟨row, among⟩ := List.exists_mem_of_ne_nil _ some
  obtain ⟨visit, visited, _⟩ := List.mem_map.mp among
  obtain ⟨visited, here⟩ := List.mem_filter.mp visited
  have here : visit.1.column = leaf.column := of_decide_eq_true here
  refine ⟨visit, List.mem_filter.mpr ⟨visited, ?_⟩, ?_⟩
  · rw [here]
    exact chosen_of_mem_selected member
  · exact Schema.eq_of_column_eq isLeaf (Field.mem_leaves_of_mem_visitsAll visited) here

section Held

variable (accepted : schema.IsAccepted) (own : projection.IsOf schema)
  (admitted : ∀ record ∈ log, schema.Admits record) (shortest : IsLeastKept projection kept least)

include accepted own shortest

/-- Of every selected leaf at least so many records are kept. -/
theorem IsLeastKept.le_kept (member : leaf ∈ projection.selected schema) : least ≤ kept leaf.id := by
  refine shortest.le leaf.id ?_
  rw [own.fields_eq accepted]
  exact List.mem_map_of_mem member

theorem IsLeastKept.exists_leaf : ∃ leaf ∈ projection.selected schema, kept leaf.id = least := by
  obtain ⟨field, among, same⟩ := shortest.reached
  rw [own.fields_eq accepted] at among
  obtain ⟨leaf, member, rfl⟩ := List.mem_map.mp among
  exact ⟨leaf, member, same⟩

include admitted

/-- **At the first record that a column has lost** the assembly fails with an underrun. -/
theorem exists_assemble_underrun (found : log[least]? = some record) :
    ∃ leaf ∈ projection.selected schema, kept leaf.id = least ∧ ∃ size,
      (schema.assemble (Machine.ofLeaves (projection.selected schema))
        ((projection.selected schema).map fun leaf =>
          readerAt schema (log.take (kept leaf.id)) least leaf)).1 =
        .error (.storeUnderrun leaf.pathText size size) := by
  have admits := admitted record (List.mem_of_getElem? found)
  have standing : Standing (fun leaf => kept leaf.id = least) (projection.selected schema)
      ((projection.selected schema).map fun leaf =>
        readerAt schema (log.take (kept leaf.id)) least leaf)
      (pick (projection.chosen schema) (schema.visits record)) := by
    refine ⟨List.length_map _, ?_, ?_⟩
    · intro position leaf reader here taken goesOn
      rw [List.getElem?_map, here] at taken
      cases taken
      have member := List.mem_of_getElem? here
      have more := shortest.le_kept accepted own member
      refine readerAt_ready_pick (fun record kept => admitted record (List.mem_of_mem_take kept)) ?_
        member
      rw [List.getElem?_take_of_lt (Nat.lt_of_le_of_ne more (Ne.symm goesOn))]
      exact found
    · intro position leaf reader here taken missing
      rw [List.getElem?_map, here] at taken
      cases taken
      dsimp only
      rw [missing]
      exact ended_readerAt schema leaf (List.length_take_le least log)
  have lacking : ∃ visit ∈ pick (projection.chosen schema) (schema.visits record),
      kept visit.1.id = least := by
    obtain ⟨leaf, member, same⟩ := shortest.exists_leaf accepted own
    obtain ⟨visit, visited, rfl⟩ := exists_visit admits member
    exact ⟨visit, visited, same⟩
  exact (isReading_selected accepted projection).assemble_underrun standing
    (fun visit => mem_selected_of_mem_pick) (begins_pick_visits accepted own admits)
    (follows_pick_selected accepted projection admits) (own.rebuilds accepted admits) lacking

/-- A stream over shortened columns delivers whole records as long as all columns have them. -/
theorem exists_toList_shortened {count : Nat} (upTo : index + count = least)
    (within : least ≤ log.length) :
    ∃ faults, EndsWith schema projection kept least log.length faults ∧
      RecordStream.toList ⟨schema, Machine.ofLeaves (projection.selected schema),
          (projection.selected schema).map fun leaf =>
            readerAt schema (log.take (kept leaf.id)) index leaf, log.length - index⟩ =
        (piece schema projection log index count).map .ok ++ faults := by
  induction count generalizing index with
  | zero =>
    obtain rfl : index = least := upTo
    rcases Nat.eq_or_lt_of_le within with all | fewer
    · refine ⟨[], .whole all, RecordStream.toList_of_next?_eq_none ?_⟩
      rw [all, Nat.sub_self]
      rfl
    · obtain ⟨leaf, member, same, size, failed⟩ := exists_assemble_underrun accepted own admitted
        shortest (List.getElem?_eq_getElem fewer)
      refine ⟨_, .short fewer member same size, ?_⟩
      exact RecordStream.toList_of_failed (Nat.sub_pos_of_lt fewer) failed
  | succ count ih =>
    have inside : index < log.length := by omega
    have later : index + 1 + count = least := by omega
    obtain ⟨faults, ends, rest⟩ := ih later
    refine ⟨faults, ends, ?_⟩
    have found : ∀ leaf ∈ projection.selected schema,
        (log.take (kept leaf.id))[index]? = some log[index] := by
      intro leaf member
      have more := shortest.le_kept accepted own member
      rw [List.getElem?_take_of_lt (by omega), List.getElem?_eq_getElem inside]
    have assembled := assemble_held accepted own
      (fun leaf _ record kept => admitted record (List.mem_of_mem_take kept))
      (admitted _ (List.getElem_mem inside)) found
    have left : log.length - index = log.length - (index + 1) + 1 := by omega
    rw [RecordStream.toList_of_assembled left assembled, piece_succ inside, List.map_cons,
      List.cons_append]
    exact congrArg _ rest

end Held

/-- **Missing records are always detected.** Whatever calls filled a table, and however few records are
left of each selected column: the records that all these columns still have are read, and if there
should be more, the stream then reports an underrun of a column that has no more, and ends. -/
theorem toList_shortened (accepted : schema.IsAccepted) (own : projection.IsOf schema)
    (options : TableOptions) :
    ∃ start machine, Table.new schema options = .ok start ∧
      Machine.ofProjection schema projection = .ok machine ∧
      ∀ calls kept least, (∀ field ∈ projection.fields, kept field ≤ (start.afterCalls calls).size) →
        IsLeastKept projection kept least →
        ∃ readers faults, (start.afterCalls calls).shortReaders machine kept = .ok readers ∧
          EndsWith schema projection kept least (start.afterCalls calls).size faults ∧
          RecordStream.toList ⟨schema, machine, readers, (start.afterCalls calls).size⟩ =
            ((start.log calls).take least).map (fun record => .ok (projection.erase schema record)) ++
              faults := by
  refine ⟨_, _, new_eq_ok schema options, Machine.ofProjection_eq accepted own,
    fun calls kept least within shortest => ?_⟩
  have holds := isTableOf_afterCalls (new_eq_ok schema options) calls
  obtain ⟨field, among, same⟩ := shortest.reached
  have enough := within field among
  rw [same, holds.size] at enough
  obtain ⟨faults, ends, items⟩ := exists_toList_shortened accepted own holds.admitted shortest
    (Nat.zero_add least) enough
  rw [← holds.size] at ends items
  refine ⟨_, faults, holds.shortReaders_eq accepted kept, ends, items.trans ?_⟩
  rw [piece, List.drop_zero, List.map_map]
  rfl

/-- Of two documents the second has lost its last columns. -/
theorem toList_shortened_lostCodes :
    Sample.documentType.IsAccepted ∧ (Projection.all Sample.documentType).IsOf Sample.documentType ∧
      ∃ start machine, Table.new Sample.documentType {} = .ok start ∧
        Machine.ofProjection Sample.documentType (Projection.all Sample.documentType) = .ok machine ∧
        IsLeastKept (Projection.all Sample.documentType) (if · < 7 then 2 else 1) 1 ∧
        ∃ readers faults,
          (start.afterCalls [.insertBatch [Sample.largeDocument, Sample.smallDocument]]).shortReaders
            machine (if · < 7 then 2 else 1) = .ok readers ∧
          EndsWith Sample.documentType (Projection.all Sample.documentType) (if · < 7 then 2 else 1) 1 2
            faults ∧
          RecordStream.toList ⟨Sample.documentType, machine, readers, 2⟩ =
            .ok ((Projection.all Sample.documentType).erase Sample.documentType Sample.largeDocument) ::
              faults := by
  refine ⟨Sample.documentType_isAccepted, Projection.IsOf.all, ?_⟩
  obtain ⟨start, machine, made, built, detects⟩ :=
    toList_shortened Sample.documentType_isAccepted Projection.IsOf.all {}
  cases made
  have least : IsLeastKept (Projection.all Sample.documentType) (if · < 7 then 2 else 1) 1 :=
    ⟨⟨7, by decide⟩, by decide⟩
  refine ⟨_, machine, rfl, built, least, ?_⟩
  exact detects [.insertBatch [Sample.largeDocument, Sample.smallDocument]] _ 1 (by decide +kernel)
    least

end Table

end NestedColumns
