/-
Columns that end early.

The readers of some leaves may stand at the end of their columns while those of the others stand
before the rows of a record (`Standing`). A column that has ended looks like one in which the next
record starts, so a run only finds out when it comes to read from it.

* `IsReading.run_underrun` — a run reads on in the usual order up to the first visit of an ended
  column, and fails there with an underrun.
* `IsReading.assemble_underrun` — so assembly fails with an underrun if a visit of an ended column is
  missing, wherever it stands among the visits.
-/

import NestedColumns.Proofs.Assembly.Run

namespace NestedColumns.Assembly

/-- The reader of a leaf stands at the end of its column. -/
structure Ended (leaf : Node) (reader : Reader) : Prop where
  stands : ∃ rows, reader = ⟨Column.holding leaf rows, rows.length⟩

section Ended

variable {leaf : Node} {reader : Reader}

theorem Ended.field_eq (ended : Ended leaf reader) : reader.field = leaf.id := by
  obtain ⟨rows, rfl⟩ := ended.stands
  rfl

/-- Nothing is read at the end of a column. -/
theorem Ended.read_eq (ended : Ended leaf reader) :
    reader.read = .error (.storeUnderrun leaf.pathText reader.column.size reader.column.size) := by
  obtain ⟨rows, rfl⟩ := ended.stands
  have nothing : (Column.holding leaf rows).get? rows.length = none := by
    simp [Column.get?, Column.holding]
  unfold Reader.read Reader.peek Column.get
  rw [nothing, Column.size_holding]
  rfl

end Ended

/-- Of the readers of some leaves, those of the `short` leaves stand at the end of their columns, and
all others are ready for the remaining visits. -/
structure Standing (short : Node → Prop) (leaves : List Node) (readers : List Reader)
    (remaining : List Visit) : Prop where
  count : readers.length = leaves.length
  ready : ∀ {index : Nat} {leaf : Node} {reader : Reader}, leaves[index]? = some leaf →
    readers[index]? = some reader → ¬ short leaf → Ready leaf reader remaining
  ended : ∀ {index : Nat} {leaf : Node} {reader : Reader}, leaves[index]? = some leaf →
    readers[index]? = some reader → short leaf → Ended leaf reader

section Standing

variable {schema : Schema} {short : Node → Prop} {leaves : List Node} {readers : List Reader}
  {visit : Visit} {remaining : List Visit} {index : Nat} {progress : Progress}

theorem Standing.exists_reader (standing : Standing short leaves readers remaining) {leaf : Node}
    (found : leaves[index]? = some leaf) : ∃ reader, readers[index]? = some reader := by
  have inside := (List.getElem?_eq_some_iff.mp found).1
  rw [← standing.count] at inside
  exact ⟨readers[index], List.getElem?_eq_getElem inside⟩

theorem Standing.map_field_eq (standing : Standing short leaves readers remaining) :
    readers.map (·.field) = (Machine.ofLeaves leaves).fields := by
  refine Assembly.map_field_eq standing.count fun {_ leaf _} here there => ?_
  by_cases missing : short leaf
  · exact (standing.ended here there missing).field_eq
  · exact (standing.ready here there missing).field_eq

/-- A row of the visited leaf is read, and the readers of all other leaves stand as before. -/
theorem Standing.read (standing : Standing short leaves readers (visit :: remaining))
    (reading : IsReading schema leaves) (here : leaves[index]? = some visit.1)
    (present : ¬ short visit.1) {reader : Reader} (after : Ready visit.1 reader remaining) :
    Standing short leaves (readers.set index reader) remaining where
  count := by rw [List.length_set, standing.count]
  ready := by
    intro position leaf other found taken goesOn
    by_cases same : index = position
    · subst same
      rw [here] at found
      cases found
      have inside := (List.getElem?_eq_some_iff.mp taken).1
      rw [List.length_set] at inside
      rw [List.getElem?_set_self inside] at taken
      cases taken
      exact after
    · rw [List.getElem?_set_ne same] at taken
      exact (standing.ready found taken goesOn).skip (reading.column_ne here found same)
  ended := by
    intro position leaf other found taken missing
    have same : index ≠ position := by
      rintro rfl
      rw [here] at found
      cases found
      exact present missing
    rw [List.getElem?_set_ne same] at taken
    exact standing.ended found taken missing

/-- **A step at an ended column** fails with an underrun. -/
theorem Standing.step_failed (standing : Standing short leaves progress.readers remaining)
    (reading : IsReading schema leaves) {leaf : Node} (here : leaves[index]? = some leaf)
    (missing : short leaf) : ∃ size, step schema (Machine.ofLeaves leaves) index progress =
      .failed (.storeUnderrun leaf.pathText size size) progress.readers := by
  obtain ⟨reader, found⟩ := standing.exists_reader here
  have ended := standing.ended here found missing
  have resolved : schema.resolve reader.field = .ok leaf := by
    rw [ended.field_eq]
    exact reading.known leaf (List.mem_of_getElem? here)
  refine ⟨reader.column.size, ?_⟩
  unfold step
  rw [found]
  dsimp only
  rw [resolved]
  dsimp only
  rw [ended.read_eq]

end Standing

namespace IsReading

variable {schema : Schema} {leaves : List Node} {short : Node → Prop}

/-- **A run comes to the first missing row** and fails there. Up to it everything is as if no column
had ended, since the machine only looks at columns that it has read from. -/
theorem run_underrun (reading : IsReading schema leaves) :
    ∀ {remaining : List Visit} {visit : Visit} {index : Nat} {progress : Progress} {kept : Nat}
      {final : Record.Place × Record},
      Standing short leaves progress.readers (visit :: remaining) →
      leaves[index]? = some visit.1 → (∀ other ∈ remaining, other.1 ∈ leaves) →
      Follows (Machine.ofLeaves leaves) [] (visit :: remaining) →
      (∀ position, keptGroups progress index visit.1 visit.2 position = .ok kept) →
      feedFrom (progress.chain.take kept) progress.record (visit :: remaining) = .ok final →
      (∃ other ∈ visit :: remaining, short other.1) →
      ∃ leaf ∈ leaves, short leaf ∧ ∃ size,
        (run schema (Machine.ofLeaves leaves) index progress).1 =
          .error (.storeUnderrun leaf.pathText size size) := by
  intro remaining
  induction remaining with
  | nil =>
    intro visit index progress kept final standing here _ _ _ _ lacking
    obtain ⟨other, member, missing⟩ := lacking
    obtain rfl := List.mem_singleton.mp member
    obtain ⟨size, failed⟩ := standing.step_failed reading here missing
    exact ⟨_, List.mem_of_getElem? here, missing, size, by rw [run_of_failed failed]⟩
  | cons next remaining ih =>
    intro visit index progress kept final standing here among follows keeps fed lacking
    by_cases missing : short visit.1
    · obtain ⟨size, failed⟩ := standing.step_failed reading here missing
      exact ⟨_, List.mem_of_getElem? here, missing, size, by rw [run_of_failed failed]⟩
    · obtain ⟨reader, found⟩ := standing.exists_reader here
      have stands := standing.ready here found missing
      obtain ⟨opened, settled, fed⟩ := bind_eq_ok.mp fed
      obtain ⟨kept', keeps', fed⟩ := bind_eq_ok.mp fed
      have stepped := reading.step_of_ready found stands here follows keeps settled
      rw [List.forall_mem_cons] at among
      obtain ⟨following, there⟩ := List.getElem?_of_mem among.1
      have position : (Machine.ofLeaves leaves).position? next.1.id = some following :=
        Machine.position?_ofLeaves reading.distinct there
      dsimp only [List.head?_cons, Option.bind_some] at stepped
      rw [position] at stepped
      rw [run_of_next stepped]
      refine ih (standing.read reading here missing (stands.read rfl).2) there among.2 follows.2
        (fun position => ?_) fed ?_
      · rw [reading.keptGroups_eq rfl here there]
        exact keeps'
      · obtain ⟨other, member, short⟩ := lacking
        rcases List.mem_cons.mp member with rfl | later
        · exact absurd short missing
        · exact ⟨other, later, short⟩

/-- **Assembly finds that a column has ended**, if the record has a visit there. -/
theorem assemble_underrun (reading : IsReading schema leaves) {readers : List Reader}
    {visits : List Visit} (standing : Standing short leaves readers visits)
    (among : ∀ visit ∈ visits, visit.1 ∈ leaves)
    (begins : ∃ visit, visits.head? = some visit ∧ leaves.head? = some visit.1 ∧
      visit.2.repetition = 0)
    (follows : Follows (Machine.ofLeaves leaves) [] visits) {record : Record}
    (rebuilds : Rebuilds [] visits Record.empty record) (lacking : ∃ visit ∈ visits, short visit.1) :
    ∃ leaf ∈ leaves, short leaf ∧ ∃ size,
      (schema.assemble (Machine.ofLeaves leaves) readers).1 =
        .error (.storeUnderrun leaf.pathText size size) := by
  obtain ⟨visit, first, leaf, starts⟩ := begins
  obtain ⟨remaining, rfl⟩ := List.head?_eq_some_iff.mp first
  obtain ⟨inside, fed, _⟩ := rebuilds
  rw [List.forall_mem_cons] at among
  rw [List.head?_eq_getElem?] at leaf
  have keeps : ∀ position, keptGroups { readers } 0 visit.1 visit.2 position = .ok 0 :=
    fun position => if_pos starts
  obtain ⟨missing, member, short, size, failed⟩ :=
    reading.run_underrun standing leaf among.2 follows keeps fed lacking
  refine ⟨missing, member, short, size, ?_⟩
  unfold Schema.assemble
  rw [if_pos standing.map_field_eq]
  generalize run schema (Machine.ofLeaves leaves) 0 { readers } = ran at failed ⊢
  obtain ⟨result, after⟩ := ran
  cases failed
  rfl

end IsReading

end NestedColumns.Assembly
