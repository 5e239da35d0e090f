/-
Running the machine over readers.

Every reader stands before a suffix of its column. While visits remain to be read, the suffix of a
leaf begins with the rows of that leaf among them, and then a record starts or the column ends
(`Ready`).

* `Ready.read`, `Ready.skip` — one visit takes one row from one reader.
* `IsReading.run_eq` — a run over remaining visits that follow the machine reads all of them in order
  and completes, with the record that feeding them gives.
* `IsReading.assemble_eq` — so assembly rebuilds the record of any visits that follow the machine, and
  leaves every reader behind the rows of its leaf among them (`readersAfter`).
-/

import NestedColumns.Proofs.Assembly.Rebuild
import NestedColumns.Proofs.Column.Holding

namespace NestedColumns.Assembly

/-! ### Readers -/

/-- The reader of a leaf stands before the rows of that leaf among the remaining visits. -/
structure Ready (leaf : Node) (reader : Reader) (remaining : List Visit) : Prop where
  stands : ∃ rows after, reader.column = Column.holding leaf rows ∧
    (∀ row ∈ rows, row.Fits leaf) ∧
    rows.drop reader.position = rowsAt leaf.column remaining ++ after ∧
    (after.head?.map (·.repetition)).getD 0 = 0

section Ready

variable {leaf : Node} {reader : Reader} {visit : Visit} {remaining : List Visit}

theorem Ready.field_eq (ready : Ready leaf reader remaining) : reader.field = leaf.id := by
  obtain ⟨rows, after, column, _⟩ := ready.stands
  rw [Reader.field, column, Column.field_holding]

/-- The next repetition level of a reader is that of the next visit of its leaf. -/
theorem Ready.nextRepetition_eq (ready : Ready leaf reader remaining) :
    reader.nextRepetition = levelAfter leaf.column remaining := by
  obtain ⟨rows, after, column, _, suffix, starts⟩ := ready.stands
  have next : rows[reader.position]? = (rowsAt leaf.column remaining ++ after).head? := by
    rw [← suffix, List.head?_drop]
  have level : reader.column.repetitionLevels[reader.position]? =
      rows[reader.position]?.map (·.repetition) := by
    rw [column]
    simp [Column.holding]
  unfold Reader.nextRepetition
  rw [level, next, levelAfter, List.head?_append]
  cases (rowsAt leaf.column remaining).head? with
  | some row => rfl
  | none => exact starts

/-- A visit of the leaf is read, and the reader moves on. -/
theorem Ready.read (ready : Ready leaf reader (visit :: remaining))
    (here : visit.1.column = leaf.column) :
    reader.read = .ok (visit.2, reader.seek (reader.position + 1)) ∧
      Ready leaf (reader.seek (reader.position + 1)) remaining := by
  obtain ⟨rows, after, column, fits, suffix, starts⟩ := ready.stands
  have split : rows.drop reader.position =
      visit.2 :: (rowsAt leaf.column remaining ++ after) := by
    rw [suffix, rowsAt, List.filter_cons_of_pos (by exact decide_eq_true here)]
    rfl
  have next : rows[reader.position]? = some visit.2 := by
    rw [← List.head?_drop, split, List.head?_cons]
  refine ⟨?_, rows, after, column, fits, ?_, starts⟩
  · unfold Reader.read Reader.peek Column.get
    rw [column, Column.get?_holding fits, next]
    rfl
  · unfold Reader.seek
    rw [← List.tail_drop, split, List.tail_cons]

/-- A visit of another leaf leaves the reader ready. -/
theorem Ready.skip (ready : Ready leaf reader (visit :: remaining))
    (elsewhere : visit.1.column ≠ leaf.column) : Ready leaf reader remaining := by
  obtain ⟨rows, after, column, fits, suffix, starts⟩ := ready.stands
  refine ⟨rows, after, column, fits, ?_, starts⟩
  rw [suffix, rowsAt, List.filter_cons_of_neg (by simpa using elsewhere)]
  rfl

end Ready

/-- Leaves of a schema with their columns in order, each of them known by its number. -/
structure IsReading (schema : Schema) (leaves : List Node) : Prop where
  distinct : (leaves.map (·.id)).Nodup
  ordered : leaves.Pairwise fun a b => a.column < b.column
  known : ∀ leaf ∈ leaves, schema.resolve leaf.id = .ok leaf

theorem isReading_selected {schema : Schema} (accepted : schema.IsAccepted) (projection : Projection) :
    IsReading schema (projection.selected schema) where
  distinct := accepted.nodup_leafIds.sublist ((projection.selected_sublist schema).map _)
  ordered := by
    have ordered : (schema.leaves.map (·.column)).Pairwise (· < ·) := by
      rw [Schema.leaves_eq, Field.map_column_leavesAll]
      exact List.pairwise_lt_range'
    rw [List.pairwise_map] at ordered
    exact ordered.sublist (projection.selected_sublist schema)
  known := fun leaf member => accepted.resolve_id (Projection.mem_nodes_of_mem_selected member)

/-- Every reader of some leaves is ready for the remaining visits. -/
structure AllReady (leaves : List Node) (readers : List Reader) (remaining : List Visit) : Prop where
  count : readers.length = leaves.length
  each : ∀ {index : Nat} {leaf : Node} {reader : Reader}, leaves[index]? = some leaf →
    readers[index]? = some reader → Ready leaf reader remaining

theorem AllReady.getElem? {leaves : List Node} {readers : List Reader} {remaining : List Visit}
    (ready : AllReady leaves readers remaining) {index : Nat} {leaf : Node}
    (found : leaves[index]? = some leaf) :
    ∃ reader, readers[index]? = some reader ∧ Ready leaf reader remaining := by
  have inside : index < readers.length := by
    rw [ready.count]
    exact (List.getElem?_eq_some_iff.mp found).1
  exact ⟨readers[index], List.getElem?_eq_getElem inside,
    ready.each found (List.getElem?_eq_getElem inside)⟩

/-- The readers of some leaves behind visits: each has moved on by the rows of its leaf among them. -/
def readersAfter (leaves : List Node) (readers : List Reader) (visits : List Visit) : List Reader :=
  List.zipWith (fun leaf reader => reader.seek (reader.position + (rowsAt leaf.column visits).length))
    leaves readers

theorem readersAfter_append (leaves : List Node) (readers : List Reader) (first second : List Visit) :
    readersAfter leaves readers (first ++ second) =
      readersAfter leaves (readersAfter leaves readers first) second := by
  induction leaves generalizing readers with
  | nil => rfl
  | cons leaf leaves ih =>
    cases readers with
    | nil => rfl
    | cons reader readers =>
      have here : reader.seek (reader.position + (rowsAt leaf.column (first ++ second)).length) =
          (reader.seek (reader.position + (rowsAt leaf.column first).length)).seek
            (reader.position + (rowsAt leaf.column first).length +
              (rowsAt leaf.column second).length) := by
        rw [rowsAt_append, List.length_append, ← Nat.add_assoc]
        rfl
      exact congrArg₂ List.cons here (ih readers)

/-! ### One step -/

namespace IsReading

variable {schema : Schema} {leaves : List Node} {index : Nat} {visit : Visit}
  {remaining : List Visit} {progress : Progress}

theorem column_lt_iff (reading : IsReading schema leaves) {i j : Nat} {a b : Node}
    (first : leaves[i]? = some a) (second : leaves[j]? = some b) :
    a.column < b.column ↔ i < j := by
  have increases : ∀ {i j : Nat} {a b : Node}, leaves[i]? = some a → leaves[j]? = some b → i < j →
      a.column < b.column := by
    intro i j a b first second less
    obtain ⟨inside, rfl⟩ := List.getElem?_eq_some_iff.mp first
    obtain ⟨inside', rfl⟩ := List.getElem?_eq_some_iff.mp second
    exact List.pairwise_iff_getElem.mp reading.ordered i j inside inside' less
  constructor
  · intro less
    by_contra notLess
    rcases Nat.lt_or_eq_of_le (Nat.le_of_not_lt notLess) with later | rfl
    · exact absurd (increases second first later) (Nat.not_lt_of_lt less)
    · rw [first] at second
      cases second
      exact absurd less (Nat.lt_irrefl _)
  · exact increases first second

theorem column_ne (reading : IsReading schema leaves) {i j : Nat} {a b : Node}
    (first : leaves[i]? = some a) (second : leaves[j]? = some b) (apart : i ≠ j) :
    a.column ≠ b.column := by
  intro columns
  have less := reading.column_lt_iff first second
  have greater := reading.column_lt_iff second first
  omega

/-- The row of the visited leaf is read, and the other readers stay ready. -/
theorem allReady_set (reading : IsReading schema leaves) {readers : List Reader} {reader : Reader}
    (ready : AllReady leaves readers (visit :: remaining))
    (here : leaves[index]? = some visit.1) (after : Ready visit.1 reader remaining) :
    AllReady leaves (readers.set index reader) remaining where
  count := by rw [List.length_set, ready.count]
  each := by
    intro position leaf other found taken
    by_cases same : index = position
    · subst same
      rw [here] at found
      cases found
      have inside := (List.getElem?_eq_some_iff.mp taken).1
      rw [List.length_set] at inside
      rw [List.getElem?_set_self inside] at taken
      cases taken
      exact after
    · rw [List.getElem?_set_ne same] at taken
      exact (ready.each found taken).skip (reading.column_ne here found same)

/-- Behind one visit, only the reader of its leaf has moved on. -/
theorem set_eq_readersAfter (reading : IsReading schema leaves) {readers : List Reader}
    {reader : Reader} (count : readers.length = leaves.length) (here : leaves[index]? = some visit.1)
    (found : readers[index]? = some reader) :
    readers.set index (reader.seek (reader.position + 1)) = readersAfter leaves readers [visit] := by
  ext1 position
  unfold readersAfter
  rw [List.getElem?_zipWith]
  by_cases same : index = position
  · subst same
    have inside := (List.getElem?_eq_some_iff.mp found).1
    rw [List.getElem?_set_self inside, here, found]
    simp [rowsAt]
  · rw [List.getElem?_set_ne same]
    cases there : leaves[position]? with
    | none =>
      rw [List.getElem?_eq_none_iff, ← count] at there
      rw [List.getElem?_eq_none there]
    | some leaf =>
      have elsewhere := reading.column_ne here there same
      cases readers[position]? with
      | none => rfl
      | some other => simp [rowsAt, elsewhere, Reader.seek]

/-- A step reads the next visit from the reader of its leaf, whatever the other readers are like, and
goes to the leaf of the visit after it. -/
theorem step_of_ready (reading : IsReading schema leaves) {reader : Reader}
    (found : progress.readers[index]? = some reader)
    (stands : Ready visit.1 reader (visit :: remaining)) (here : leaves[index]? = some visit.1)
    (follows : Follows (Machine.ofLeaves leaves) [] (visit :: remaining)) {kept : Nat}
    (keeps : ∀ position, keptGroups progress index visit.1 visit.2 position = .ok kept)
    {opened : Record.Place × Record}
    (settled : settle (progress.chain.take kept) progress.record visit = .ok opened) :
    step schema (Machine.ofLeaves leaves) index progress =
      let readers := progress.readers.set index (reader.seek (reader.position + 1))
      match remaining.head?.bind fun next => (Machine.ofLeaves leaves).position? next.1.id with
      | some following => .next following ⟨readers, opened.2, opened.1, some (index, visit.1)⟩
      | none => .complete ⟨readers, opened.2, opened.1, some (index, visit.1)⟩ := by
  obtain ⟨read, after⟩ := stands.read rfl
  have added : addRow progress index visit.1 visit.2 reader.position = .ok opened := by
    rw [addRow_eq, keeps]
    exact settled
  have resolved : schema.resolve reader.field = .ok visit.1 := by
    rw [stands.field_eq]
    exact reading.known _ (List.mem_of_getElem? here)
  have next : (Machine.ofLeaves leaves).next? reader.field
      (reader.seek (reader.position + 1)).nextRepetition = remaining.head?.map (·.1.id) := by
    have target := follows.1
    rw [List.append_nil] at target
    rw [stands.field_eq, after.nextRepetition_eq, target]
  unfold step
  rw [found]
  dsimp only
  rw [resolved]
  dsimp only
  rw [read]
  dsimp only
  rw [added]
  dsimp only
  rw [next, Option.bind_map]
  rfl

/-- **One step** reads the next visit and goes to the leaf of the visit after it. -/
theorem step_eq (reading : IsReading schema leaves)
    (ready : AllReady leaves progress.readers (visit :: remaining))
    (here : leaves[index]? = some visit.1)
    (follows : Follows (Machine.ofLeaves leaves) [] (visit :: remaining)) {kept : Nat}
    (keeps : ∀ position, keptGroups progress index visit.1 visit.2 position = .ok kept)
    {opened : Record.Place × Record}
    (settled : settle (progress.chain.take kept) progress.record visit = .ok opened) :
    ∃ readers, readers = readersAfter leaves progress.readers [visit] ∧
      AllReady leaves readers remaining ∧
      step schema (Machine.ofLeaves leaves) index progress =
        match remaining.head?.bind fun next => (Machine.ofLeaves leaves).position? next.1.id with
        | some following => .next following ⟨readers, opened.2, opened.1, some (index, visit.1)⟩
        | none => .complete ⟨readers, opened.2, opened.1, some (index, visit.1)⟩ := by
  obtain ⟨reader, found, stands⟩ := ready.getElem? here
  exact ⟨_, reading.set_eq_readersAfter ready.count here found,
    reading.allReady_set ready here (stands.read rfl).2,
    reading.step_of_ready found stands here follows keeps settled⟩

/-- What stays open is decided from the positions of two leaves in reading order, or from their
columns. -/
theorem keptGroups_eq (reading : IsReading schema leaves) {before : Nat} {last : Node}
    (previous : progress.previous = some (before, last)) (there : leaves[before]? = some last)
    (here : leaves[index]? = some visit.1) (position : Nat) :
    keptGroups progress index visit.1 visit.2 position =
      keptAfter last visit progress.chain.length := by
  unfold keptGroups keptAfter
  rw [previous]
  dsimp only
  by_cases onward : before < index
  · rw [if_pos onward, if_pos ((reading.column_lt_iff there here).mpr onward)]
  · rw [if_neg (mt (reading.column_lt_iff there here).mp onward)]
    refine (if_neg onward).trans ?_
    cases Path.ownerIndex visit.2.repetition visit.1.path <;> rfl

end IsReading

/-! ### A whole run -/

section Run

variable {schema : Schema} {machine : Machine} {index : Nat} {progress later : Progress}

theorem run_of_next {following : Nat}
    (goesOn : step schema machine index progress = .next following later) :
    run schema machine index progress = run schema machine following later := by
  rw [run]
  split
  · rename_i other after same
    rw [goesOn] at same
    cases same
    rfl
  · rename_i after same
    rw [goesOn] at same
    cases same
  · rename_i fault readers same
    rw [goesOn] at same
    cases same

theorem run_of_complete (ends : step schema machine index progress = .complete later) :
    run schema machine index progress = (.ok later, later.readers) := by
  rw [run]
  split
  · rename_i other after same
    rw [ends] at same
    cases same
  · rename_i after same
    rw [ends] at same
    cases same
    rfl
  · rename_i fault readers same
    rw [ends] at same
    cases same

theorem run_of_failed {fault : Fault} {readers : List Reader}
    (fails : step schema machine index progress = .failed fault readers) :
    run schema machine index progress = (.error fault, readers) := by
  rw [run]
  split
  · rename_i other after same
    rw [fails] at same
    cases same
  · rename_i after same
    rw [fails] at same
    cases same
  · rename_i fault readers same
    rw [fails] at same
    cases same
    rfl

end Run

namespace IsReading

variable {schema : Schema} {leaves : List Node}

/-- **A run reads all visits that remain**, in their order, and ends with the record that feeding them
gives. -/
theorem run_eq (reading : IsReading schema leaves) :
    ∀ {remaining : List Visit} {visit : Visit} {index : Nat} {progress : Progress} {kept : Nat}
      {opened final : Record.Place × Record},
      AllReady leaves progress.readers (visit :: remaining) →
      leaves[index]? = some visit.1 → (∀ other ∈ remaining, other.1 ∈ leaves) →
      Follows (Machine.ofLeaves leaves) [] (visit :: remaining) →
      (∀ position, keptGroups progress index visit.1 visit.2 position = .ok kept) →
      settle (progress.chain.take kept) progress.record visit = .ok opened →
      feed visit.1 opened.1 opened.2 remaining = .ok final →
      ∃ later, run schema (Machine.ofLeaves leaves) index progress = (.ok later, later.readers) ∧
        later.record = final.2 ∧ AllReady leaves later.readers [] ∧
        later.readers = readersAfter leaves progress.readers (visit :: remaining)
  | [], visit, index, progress, kept, opened, final, ready, here, _, follows, keeps, settled, fed => by
    obtain ⟨readers, moved, stillReady, stepped⟩ := reading.step_eq ready here follows keeps settled
    cases fed
    exact ⟨_, run_of_complete stepped, rfl, stillReady, moved⟩
  | next :: remaining, visit, index, progress, kept, opened, final, ready, here, among, follows,
      keeps, settled, fed => by
    rw [List.forall_mem_cons] at among
    obtain ⟨readers, moved, stillReady, stepped⟩ := reading.step_eq ready here follows keeps settled
    obtain ⟨following, there⟩ := List.getElem?_of_mem among.1
    rw [List.head?_cons, Option.bind_some, Machine.position?_ofLeaves reading.distinct there] at stepped
    obtain ⟨kept', keeps', fed⟩ := bind_eq_ok.mp fed
    obtain ⟨opened', settled', fed⟩ := bind_eq_ok.mp fed
    rw [run_of_next stepped, ← List.singleton_append, readersAfter_append, ← moved]
    refine reading.run_eq stillReady there among.2 follows.2 (fun position => ?_) settled' fed
    rw [reading.keptGroups_eq rfl here there]
    exact keeps'

end IsReading

theorem checkEnds_eq {leaves : List Node} {readers : List Reader}
    (ready : AllReady leaves readers []) : checkEnds readers = .ok () := by
  unfold checkEnds
  rw [forM_eq_ok]
  intro reader member
  obtain ⟨index, found⟩ := List.getElem?_of_mem member
  have inside : index < leaves.length := by
    rw [← ready.count]
    exact (List.getElem?_eq_some_iff.mp found).1
  have stands := ready.each (List.getElem?_eq_getElem inside) found
  exact if_pos stands.nextRepetition_eq

/-- Readers of some leaves, in order, are those that the machine of the leaves asks for. -/
theorem map_field_eq {leaves : List Node} {readers : List Reader}
    (count : readers.length = leaves.length)
    (each : ∀ {index : Nat} {leaf : Node} {reader : Reader}, leaves[index]? = some leaf →
      readers[index]? = some reader → reader.field = leaf.id) :
    readers.map (·.field) = (Machine.ofLeaves leaves).fields := by
  rw [Machine.fields_ofLeaves]
  refine List.ext_getElem (by simpa using count) fun index inside inside' => ?_
  rw [List.length_map] at inside inside'
  rw [List.getElem_map, List.getElem_map]
  exact each (List.getElem?_eq_getElem inside') (List.getElem?_eq_getElem inside)

/-- **Assembly rebuilds the record of visits that follow the machine**, and leaves the readers behind
them. -/
theorem IsReading.assemble_eq {schema : Schema} {leaves : List Node}
    (reading : IsReading schema leaves) {readers : List Reader} {visits : List Visit}
    (ready : AllReady leaves readers visits) (among : ∀ visit ∈ visits, visit.1 ∈ leaves)
    (begins : ∃ visit, visits.head? = some visit ∧ leaves.head? = some visit.1 ∧
      visit.2.repetition = 0)
    (follows : Follows (Machine.ofLeaves leaves) [] visits) {record : Record}
    (rebuilds : Rebuilds [] visits Record.empty record) :
    schema.assemble (Machine.ofLeaves leaves) readers =
      (.ok record, readersAfter leaves readers visits) := by
  obtain ⟨visit, first, leaf, starts⟩ := begins
  obtain ⟨remaining, rfl⟩ := List.head?_eq_some_iff.mp first
  obtain ⟨inside, fed, _⟩ := rebuilds
  obtain ⟨opened, settled, fed⟩ := bind_eq_ok.mp fed
  rw [List.forall_mem_cons] at among
  have fields : readers.map (·.field) = (Machine.ofLeaves leaves).fields :=
    map_field_eq ready.count fun here there => (ready.each here there).field_eq
  have keeps : ∀ position, keptGroups { readers } 0 visit.1 visit.2 position = .ok 0 :=
    fun position => if_pos starts
  rw [List.head?_eq_getElem?] at leaf
  obtain ⟨later, ran, result, stillReady, moved⟩ :=
    reading.run_eq ready leaf among.2 follows keeps settled fed
  unfold Schema.assemble
  rw [if_pos fields, ran]
  dsimp only
  rw [checkEnds_eq stillReady, moved]
  exact congrArg (fun record => (Except.ok record, _)) result

end NestedColumns.Assembly
