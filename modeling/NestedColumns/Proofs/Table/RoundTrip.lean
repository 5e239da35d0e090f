/-
The round trip.

A table that holds a log has, in the column of each leaf, the rows of the first record, then those of
the second, and so on. The index of records leads the reader of every selected leaf to the rows of
the record that is asked for (`IsTableOf.readers_eq`, `readerAt_ready`); there assembly rebuilds what
erasure leaves of it, and leaves the readers at the next record (`assemble_readerAt`). For this the
columns need not hold the same log, as long as they agree in the record that is read
(`assemble_held`). So reading undoes writing, whatever the calls were.
-/

import NestedColumns.Proofs.Assembly.Run
import NestedColumns.Proofs.Projection.Erasure
import NestedColumns.Proofs.Table.Log
import NestedColumns.Table.Read

namespace NestedColumns.Table

open Assembly

variable {schema : Schema} {log : List Record} {table : Table} {record : Record} {index : Nat}
  {leaf : Node} {projection : Projection}

/-! ### Readers at a record -/

/-- The reader of a leaf at a record of a log. -/
def readerAt (schema : Schema) (log : List Record) (index : Nat) (leaf : Node) : Reader where
  column := Column.holding leaf (log.map fun record => schema.rowsOf record leaf).flatten
  position := ((log.map fun record => schema.rowsOf record leaf).take index).flatten.length

theorem IsTableOf.column_eq (holds : IsTableOf schema log table) (accepted : schema.IsAccepted)
    (member : leaf ∈ schema.leaves) :
    table.column leaf.id =
      .ok (Column.holding leaf (log.map fun record => schema.rowsOf record leaf).flatten) := by
  have found := Schema.leaves_getElem?_column member
  have ordinal : schema.leafOrdinal? leaf.id = some leaf.column :=
    Machine.idxOf?_map_id accepted.nodup_leafIds found
  have stored : table.columns[leaf.column]? =
      some (Column.holding leaf (log.map fun record => schema.rowsOf record leaf).flatten) := by
    rw [holds.columns, Schema.columnsOf, List.getElem?_map, found]
    rfl
  unfold column
  rw [holds.schema_eq, bind_eq_ok]
  refine ⟨leaf, accepted.resolve_id (List.mem_of_mem_filter member), ?_⟩
  rw [ordinal, Option.bind_some, stored]

theorem IsTableOf.readers_eq (holds : IsTableOf schema log table) (accepted : schema.IsAccepted)
    (inside : index < log.length) {leaves : List Node} (known : ∀ leaf ∈ leaves, leaf ∈ schema.leaves) :
    table.readers (Machine.ofLeaves leaves) index = .ok (leaves.map (readerAt schema log index)) := by
  rw [readers, Machine.fields_ofLeaves, mapM_eq_ok, List.forall₂_map_left_iff,
    List.forall₂_map_right_iff, List.forall₂_same]
  intro leaf member
  have each : ∀ rows ∈ log.map fun record => schema.rowsOf record leaf, Column.IsRecord rows := by
    intro rows among
    obtain ⟨record, logged, rfl⟩ := List.mem_map.mp among
    exact Schema.isRecord_rowsOf (holds.admitted record logged) (known leaf member)
  have start : (Column.holding leaf (log.map fun record => schema.rowsOf record leaf).flatten).recordStart?
      index = some _ := Column.recordStart?_holding each (by simpa using inside)
  rw [bind_eq_ok]
  refine ⟨_, holds.column_eq accepted (known leaf member), ?_⟩
  unfold Reader.atRecord
  rw [start]
  rfl

/-- The first of the rows that follow those of a record starts a record. -/
theorem head?_flatten_rowsOf (admitted : ∀ record ∈ log, schema.Admits record)
    (member : leaf ∈ schema.leaves) :
    ((log.map fun record => schema.rowsOf record leaf).flatten.head?.map (·.repetition)).getD 0 = 0 := by
  cases log with
  | nil => rfl
  | cons record rest =>
    have starts := Schema.isRecord_rowsOf (admitted record List.mem_cons_self) member
    rw [List.map_cons, List.flatten_cons]
    cases rows : schema.rowsOf record leaf with
    | nil =>
      rw [rows] at starts
      cases starts
    | cons first more =>
      rw [rows] at starts
      cases starts with
      | cons atLevel _ => exact atLevel

/-- **The index of records leads to the rows of the record.** -/
theorem readerAt_ready (admitted : ∀ record ∈ log, schema.Admits record)
    (found : log[index]? = some record) (member : leaf ∈ schema.leaves) :
    Ready leaf (readerAt schema log index leaf) (schema.visits record) where
  stands := by
    obtain ⟨inside, rfl⟩ := List.getElem?_eq_some_iff.mp found
    have split : log.drop index = log[index] :: log.drop (index + 1) := List.drop_eq_getElem_cons inside
    refine ⟨_, ((log.drop (index + 1)).map fun record => schema.rowsOf record leaf).flatten, rfl,
      Schema.fits_of_mem_log admitted member, ?_,
      head?_flatten_rowsOf (fun record later => admitted record (List.mem_of_mem_drop later)) member⟩
    · have parts := congrArg List.flatten (List.take_append_drop index
        (log.map fun record => schema.rowsOf record leaf))
      rw [List.flatten_append] at parts
      rw [readerAt, ← parts, List.drop_left, ← List.map_drop, split, List.map_cons, List.flatten_cons]
      rfl

theorem chosen_of_mem_selected (member : leaf ∈ projection.selected schema) :
    projection.chosen schema leaf.column = true := by
  obtain ⟨isLeaf, picked⟩ := List.mem_filter.mp member
  rw [Projection.chosen_column isLeaf]
  exact picked

/-- The reader of a selected leaf stands before its rows among the selected visits. -/
theorem readerAt_ready_pick (admitted : ∀ record ∈ log, schema.Admits record)
    (found : log[index]? = some record) (member : leaf ∈ projection.selected schema) :
    Ready leaf (readerAt schema log index leaf)
      (pick (projection.chosen schema) (schema.visits record)) where
  stands := by
    obtain ⟨rows, after, column, fits, suffix, starts⟩ :=
      (readerAt_ready admitted found (List.mem_of_mem_filter member)).stands
    refine ⟨rows, after, column, fits, ?_, starts⟩
    rw [rowsAt_pick (chosen_of_mem_selected member)]
    exact suffix

/-- Readers at one record of logs that may differ from leaf to leaf. -/
theorem allReady_readerAt (projection : Projection) {held : Node → List Record}
    (admitted : ∀ leaf ∈ projection.selected schema, ∀ record ∈ held leaf, schema.Admits record)
    (found : ∀ leaf ∈ projection.selected schema, (held leaf)[index]? = some record) :
    AllReady (projection.selected schema)
      ((projection.selected schema).map fun leaf => readerAt schema (held leaf) index leaf)
      (pick (projection.chosen schema) (schema.visits record)) where
  count := List.length_map _
  each := by
    intro position leaf reader here taken
    rw [List.getElem?_map, here] at taken
    cases taken
    have member := List.mem_of_getElem? here
    exact readerAt_ready_pick (admitted leaf member) (found leaf member) member

/-! ### Assembly -/

/-- The selected visits of a record begin with the first selected leaf, where the record starts. -/
theorem begins_pick_visits (accepted : schema.IsAccepted) (own : projection.IsOf schema)
    (admitted : schema.Admits record) :
    ∃ visit, (pick (projection.chosen schema) (schema.visits record)).head? = some visit ∧
      (projection.selected schema).head? = some visit.1 ∧ visit.2.repetition = 0 := by
  have inside := Schema.admitsAll_of_admits admitted
  have heads : (pick (projection.chosen schema) (schema.visits record)).head?.map (·.1) =
      (projection.selected schema).head? := by
    rw [Projection.selected_eq]
    exact Field.head?_pick_visitsAll 0 record inside
  obtain ⟨first, rest, leaves⟩ := List.exists_cons_of_ne_nil (own.selected_ne_nil accepted)
  rw [leaves, List.head?_cons] at heads ⊢
  obtain ⟨visit, found, rfl⟩ := Option.map_eq_some_iff.mp heads
  have member : visit.1 ∈ schema.leaves :=
    Field.mem_leaves_of_mem_visitsAll (List.mem_of_mem_filter (List.mem_of_head? found))
  exact ⟨visit, found, rfl, Field.repetition_of_head?_pick found (Schema.isRecord_rowsOf admitted member)⟩

/-- Behind the rows of a record stand those of the next one. -/
theorem readersAfter_readerAt (projection : Projection) {held : Node → List Record}
    (found : ∀ leaf ∈ projection.selected schema, (held leaf)[index]? = some record) :
    readersAfter (projection.selected schema)
        ((projection.selected schema).map fun leaf => readerAt schema (held leaf) index leaf)
        (pick (projection.chosen schema) (schema.visits record)) =
      (projection.selected schema).map fun leaf => readerAt schema (held leaf) (index + 1) leaf := by
  unfold readersAfter
  rw [List.zipWith_map_right, List.zipWith_self]
  refine List.map_congr_left fun leaf member => ?_
  unfold readerAt Reader.seek
  rw [rowsAt_pick (chosen_of_mem_selected member), List.take_add_one, List.getElem?_map,
    found leaf member, Option.map_some, Option.toList_some, List.flatten_append,
    List.flatten_singleton, List.length_append]
  rfl

theorem mem_selected_of_mem_pick {visit : Visit}
    (member : visit ∈ pick (projection.chosen schema) (schema.visits record)) :
    visit.1 ∈ projection.selected schema := by
  obtain ⟨visited, picked⟩ := List.mem_filter.mp member
  rw [Projection.selected_eq]
  exact List.mem_filter.mpr ⟨Field.mem_leaves_of_mem_visitsAll visited, picked⟩

theorem follows_pick_selected (accepted : schema.IsAccepted) (projection : Projection)
    (admits : schema.Admits record) :
    Follows (Machine.ofLeaves (projection.selected schema)) []
      (pick (projection.chosen schema) (schema.visits record)) := by
  rw [Projection.selected_eq]
  exact Schema.follows_pick_visits accepted (projection.chosen schema) admits

/-- **Assembly where every selected column has the record** rebuilds what erasure leaves of it, and
leaves the readers at the next one. The columns may have different records further on. -/
theorem assemble_held (accepted : schema.IsAccepted) (own : projection.IsOf schema)
    {held : Node → List Record}
    (admitted : ∀ leaf ∈ projection.selected schema, ∀ record ∈ held leaf, schema.Admits record)
    (admits : schema.Admits record)
    (found : ∀ leaf ∈ projection.selected schema, (held leaf)[index]? = some record) :
    schema.assemble (Machine.ofLeaves (projection.selected schema))
        ((projection.selected schema).map fun leaf => readerAt schema (held leaf) index leaf) =
      (.ok (projection.erase schema record),
        (projection.selected schema).map fun leaf => readerAt schema (held leaf) (index + 1) leaf) := by
  rw [← readersAfter_readerAt projection found]
  exact (isReading_selected accepted projection).assemble_eq
    (allReady_readerAt projection admitted found) (fun visit => mem_selected_of_mem_pick)
    (begins_pick_visits accepted own admits) (follows_pick_selected accepted projection admits)
    (own.rebuilds accepted admits)

/-- **Assembly at a record of the log** rebuilds what erasure leaves of it, and leaves the readers at
the next one. -/
theorem assemble_readerAt (accepted : schema.IsAccepted) (own : projection.IsOf schema)
    (admitted : ∀ record ∈ log, schema.Admits record) (found : log[index]? = some record) :
    schema.assemble (Machine.ofLeaves (projection.selected schema))
        ((projection.selected schema).map (readerAt schema log index)) =
      (.ok (projection.erase schema record),
        (projection.selected schema).map (readerAt schema log (index + 1))) :=
  assemble_held accepted own (fun _ _ => admitted) (admitted record (List.mem_of_getElem? found))
    fun _ _ => found

/-- **Assembly rebuilds, of the record of the log at an index, what erasure leaves of it.** -/
theorem IsTableOf.assemble_eq (holds : IsTableOf schema log table) (accepted : schema.IsAccepted)
    (own : projection.IsOf schema) (found : log[index]? = some record) :
    table.assemble (Machine.ofLeaves (projection.selected schema)) index =
      .ok (projection.erase schema record) := by
  have inside : index < log.length := (List.getElem?_eq_some_iff.mp found).1
  have known : ∀ leaf ∈ projection.selected schema, leaf ∈ schema.leaves :=
    fun leaf member => List.mem_of_mem_filter member
  have within : ¬ table.size ≤ index := by
    rw [holds.size]
    exact Nat.not_le_of_lt inside
  unfold assemble
  rw [if_neg within, holds.readers_eq accepted inside known, holds.schema_eq]
  exact congrArg Prod.fst (assemble_readerAt accepted own holds.admitted found)

/-- **A table gives back every record it took, as far as it is asked for.** Whatever calls filled it,
reading with a projection gives what the projection leaves of the record, and reading with all leaves
the record itself, without its empty entries. A record made from the empty one by appending is in
order (`Record.IsOrdered.append`). -/
theorem assemble_afterCalls (accepted : schema.IsAccepted) (own : projection.IsOf schema)
    (options : TableOptions) :
    ∃ start machine, Table.new schema options = .ok start ∧
      Machine.ofProjection schema projection = .ok machine ∧
      ∀ calls index, index < (start.afterCalls calls).size →
        ∃ record, (start.log calls)[index]? = some record ∧
          (start.afterCalls calls).assemble machine index = .ok (projection.erase schema record) ∧
          (projection = Projection.all schema → record.IsOrdered →
            (start.afterCalls calls).assemble machine index = .ok record.pruned) := by
  refine ⟨_, _, new_eq_ok schema options, Machine.ofProjection_eq accepted own,
    fun calls index inside => ?_⟩
  have holds := isTableOf_afterCalls (new_eq_ok schema options) calls
  rw [holds.size] at inside
  have found := List.getElem?_eq_getElem inside
  have assembled := holds.assemble_eq accepted own found
  refine ⟨_, found, assembled, fun all ordered => ?_⟩
  subst all
  have admitted := holds.admitted _ (List.mem_of_getElem? found)
  rw [assembled, Projection.erase_all_eq_pruned accepted admitted ordered]

theorem assemble_largeDocument :
    Sample.documentType.IsAccepted ∧ Sample.largeDocument.IsOrdered ∧
      ∃ start machine, Table.new Sample.documentType {} = .ok start ∧
        Machine.ofProjection Sample.documentType (Projection.all Sample.documentType) = .ok machine ∧
        (start.afterCalls [.insert Sample.largeDocument]).assemble machine 0 =
          .ok Sample.largeDocument.pruned := by
  refine ⟨Sample.documentType_isAccepted, Sample.isOrdered_largeDocument, ?_⟩
  obtain ⟨start, machine, made, built, reads⟩ :=
    assemble_afterCalls Sample.documentType_isAccepted Projection.IsOf.all {}
  cases made
  refine ⟨_, machine, rfl, built, ?_⟩
  obtain ⟨record, logged, _, whole⟩ := reads [.insert Sample.largeDocument] 0 (by decide +kernel)
  cases logged
  exact whole rfl Sample.isOrdered_largeDocument

end NestedColumns.Table
