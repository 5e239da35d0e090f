/-
Assembly over any columns is safe.

Columns may contradict each other, and readers may stand anywhere, also past the end. Still an
assembly reads few rows, looks nothing up that is not there, and fails only as rows can make it fail
(`assemble_isSafe`). All of it is read off the states that an assembly goes through (`Reached`).

* `Steady` — between two rows the open groups lead to an instance of the record, and the leaf that was
  read last stands where it was read. Every step keeps this, since the groups that stay open are groups
  around the next leaf, as many as it needs at most (`Steady.length_kept_le`).
* `AllOver.isRowFault_of_failed` — so a row is refused before it is added, or not at all.
* `Onward` — a reader that is read moves on by one row; the record ends behind the last leaf, and
  before that leaf every other one was read.
-/

import NestedColumns.Proofs.Assembly.Opened
import NestedColumns.Proofs.Assembly.Shaped
import NestedColumns.Proofs.Table.Columns

namespace NestedColumns

namespace Assembly

open Record (Leads)

/-! ### The states of an assembly -/

/-- The states that an assembly goes through; the leaf at the position is read next. -/
inductive Reached (schema : Schema) (machine : Machine) (readers : List Reader) :
    Nat → Progress → Prop
  | start : Reached schema machine readers 0 { readers }
  | next {index following : Nat} {progress later : Progress}
      (before : Reached schema machine readers index progress)
      (goesOn : step schema machine index progress = .next following later) :
      Reached schema machine readers following later

/-- How often rows are asked for in a run. -/
def rowReads (schema : Schema) (machine : Machine) (index : Nat) (progress : Progress) : Nat :=
  match _ : step schema machine index progress with
  | .next following later => rowReads schema machine following later + 1
  | .complete _ => 1
  | .failed .. => 1
termination_by unreadRows progress.readers
decreasing_by exact unreadRows_lt_of_step (by assumption)

/-- The faults of rows that do not form a record. Neither a value for which groups are missing nor an
open instance that is missing is among them. -/
inductive IsRowFault : Fault → Prop
  | underrun (column : String) (position length : Nat) :
      IsRowFault (.storeUnderrun column position length)
  | startsInside (leaf : String) (row level : Nat) :
      IsRowFault (.invalidFormat leaf (.startsInsideRecord row level))
  | unowned (leaf : String) (level : Nat) : IsRowFault (.invalidFormat leaf (.unownedLevel level))
  | tooFewGroups (element : String) : IsRowFault (.invalidFormat element .openGroupsForRepetition)
  | endsInside (column : String) (row : Nat) :
      IsRowFault (.invalidFormat column (.endsInsideRecord row))

/-- **Everything that a step looks up is there**: the leaf that is read and its reader, the groups on
its path, the leaf that was read before, the levels and values of its column, and the state of the
machine. The groups that stay open are no more than those around the leaf. -/
structure InBounds (schema : Schema) (machine : Machine) (index : Nat) (progress : Progress)
    (leaf : Node) (reader : Reader) : Prop where
  field : machine.fields[index]? = some leaf.id
  found : progress.readers[index]? = some reader
  known : schema.resolve leaf.id = .ok leaf
  path_ne_nil : leaf.path ≠ []
  onPath : ∀ label ∈ leaf.path, schema.contains label.id = true
  previous : ∀ before last, progress.previous = some (before, last) →
    machine.fields[before]? = some last.id ∧ schema.resolve last.id = .ok last ∧ last.path ≠ []
  values : reader.column.values.size = reader.column.size
  definitions : reader.column.definitionLevels.size = reader.column.size
  groups : ∀ row kept, keptGroups progress index leaf row reader.position = .ok kept →
    (progress.chain.take kept).length ≤ (groupsOf leaf).length
  targets : ∃ state, machine.state? leaf.id = some state ∧ state.targets ≠ []

/-- A reader that was read at least once and stands where a record starts, or at the end. -/
structure Finished (start now : Reader) : Prop where
  column_eq : now.column = start.column
  read : start.position < now.position
  stands : now.position = now.column.size ∨ now.column.repetitionLevels[now.position]? = some 0

/-- **An assembly that is safe.** -/
structure IsSafe (schema : Schema) (machine : Machine) (readers : List Reader) : Prop where
  /-- No more rows are asked for than are unread, and one that is not there. -/
  rowReads_le : rowReads schema machine 0 { readers } ≤ unreadRows readers + 1
  inBounds : ∀ {index : Nat} {progress : Progress}, Reached schema machine readers index progress →
    ∃ leaf reader, InBounds schema machine index progress leaf reader
  faults : ∀ fault afters, schema.assemble machine readers = (.error fault, afters) →
    IsRowFault fault
  completes : ∀ record afters, schema.assemble machine readers = (.ok record, afters) →
    afters.length = readers.length ∧
      ∀ (position : Nat) (start now : Reader), readers[position]? = some start →
        afters[position]? = some now → Finished start now

/-! ### How many rows are read -/

theorem rowReads_le {schema : Schema} {machine : Machine} (index : Nat) (progress : Progress) :
    rowReads schema machine index progress ≤ unreadRows progress.readers + 1 := by
  fun_induction rowReads schema machine index progress with
  | case1 index progress following later goesOn ih =>
    exact Nat.succ_le_succ (Nat.le_trans ih (unreadRows_lt_of_step goesOn))
  | case2 => exact Nat.succ_le_succ (Nat.zero_le _)
  | case3 => exact Nat.succ_le_succ (Nat.zero_le _)

/-! ### Between two rows -/

/-- **What is known between two rows.** -/
structure Steady (leaves : List Node) (progress : Progress) : Prop where
  read : ∀ before last, progress.previous = some (before, last) → leaves[before]? = some last
  leads : Leads progress.chain progress.record

theorem Steady.start (leaves : List Node) (readers : List Reader) : Steady leaves { readers } where
  read := fun _ _ comes => nomatch comes
  leads := Record.leads_empty

section Step

variable {schema : Schema} {leaves : List Node} {index : Nat} {progress later : Progress}
  {target : Option Nat} {leaf : Node} {row : Row} {position kept : Nat} {fault : Fault}

/-- **The groups that stay open are groups around the leaf** that is read next. -/
theorem Steady.length_kept_le (steady : Steady leaves progress) (reading : IsReading schema leaves)
    (here : leaves[index]? = some leaf)
    (keeps : keptGroups progress index leaf row position = .ok kept) :
    (progress.chain.take kept).length ≤ (groupsOf leaf).length := by
  rw [List.length_take]
  unfold groupsOf
  rcases keptGroups_eq_ok keeps with ⟨_, rfl⟩ | ⟨before, last, comes, ⟨onward, rfl⟩ | ⟨_, owns⟩⟩
  · omega
  · have apart : last.id ≠ leaf.id := by
      intro same
      have one := index_eq_of_nodup_map reading.distinct (steady.read before last comes) here same
      exact Nat.lt_irrefl _ (one ▸ onward)
    have common : (last.commonAncestorPath leaf).length ≤ leaf.path.dropLast.length := by
      unfold Node.commonAncestorPath
      rw [if_neg apart]
      exact Path.length_shared_le_right _ _
    omega
  · obtain ⟨_, found, _⟩ := Path.ownerIndex_eq_some_iff.mp owns
    have inside := (List.getElem?_eq_some_iff.mp found).1
    rw [List.length_dropLast]
    omega

/-- A row that is refused contradicts the rows read before it. -/
theorem isRowFault_of_keptGroups
    (failed : keptGroups progress index leaf row position = .error fault) : IsRowFault fault := by
  unfold keptGroups at failed
  cases comes : progress.previous with
  | none =>
    rw [comes] at failed
    dsimp only at failed
    by_cases starts : row.repetition = 0
    · rw [if_pos starts] at failed
      cases failed
    · rw [if_neg starts] at failed
      cases failed
      exact .startsInside _ _ _
  | some previous =>
    obtain ⟨before, last⟩ := previous
    rw [comes] at failed
    dsimp only at failed
    by_cases onward : before < index
    · rw [if_pos onward] at failed
      cases failed
    · rw [if_neg onward] at failed
      cases owns : Path.ownerIndex row.repetition leaf.path with
      | none =>
        rw [owns] at failed
        cases failed
        exact .unowned _ _
      | some owner =>
        rw [owns] at failed
        dsimp only at failed
        by_cases deep : min owner (groupsOf leaf).length ≤ progress.chain.length
        · rw [if_pos deep] at failed
          cases failed
        · rw [if_neg deep] at failed
          cases failed
          exact .tooFewGroups _

theorem isRowFault_of_read {reader : Reader} (failed : reader.read = .error fault) :
    IsRowFault fault := by
  unfold Reader.read Reader.peek Column.get at failed
  cases found : reader.column.get? reader.position with
  | none =>
    rw [found] at failed
    cases failed
    exact .underrun _ _ _
  | some row =>
    rw [found] at failed
    cases failed

/-- **A row that is not refused can be added.** -/
theorem Steady.exists_settle (steady : Steady leaves progress) (reading : IsReading schema leaves)
    (here : leaves[index]? = some leaf) (fits : row.Fits leaf)
    (keeps : keptGroups progress index leaf row position = .ok kept) :
    ∃ opened, settle (progress.chain.take kept) progress.record (leaf, row) = .ok opened ∧
      Leads opened.1 opened.2 :=
  Assembly.exists_settle (steady.leads.take kept) (steady.length_kept_le reading here keeps) fits

/-- **One step** keeps the record steady. -/
theorem Steady.step (steady : Steady leaves progress) (reading : IsReading schema leaves)
    (standing : AllOver leaves progress.readers) (reads : Reads leaves index progress later target) :
    Steady leaves later where
  read := by
    intro before last comes
    rw [reads.previous_eq] at comes
    cases comes
    exact reads.here
  leads := by
    obtain ⟨kept, keeps, settled⟩ := reads.exists_kept
    obtain ⟨fits, _⟩ := (standing.each reads.here reads.found).read reads.read
    obtain ⟨opened, settled', leads⟩ := steady.exists_settle reading reads.here fits keeps
    rw [settled] at settled'
    cases settled'
    exact leads

/-- **A step fails only as rows can make it fail.** -/
theorem AllOver.isRowFault_of_failed (standing : AllOver leaves progress.readers)
    (steady : Steady leaves progress) (reading : IsReading schema leaves)
    (here : leaves[index]? = some leaf) {readers : List Reader}
    (failed : step schema (Machine.ofLeaves leaves) index progress = .failed fault readers) :
    IsRowFault fault := by
  obtain ⟨reader, found, stands⟩ := standing.getElem? here
  have resolved : schema.resolve reader.field = .ok leaf := by
    rw [stands.field_eq]
    exact reading.known leaf (List.mem_of_getElem? here)
  unfold Assembly.step at failed
  rw [found] at failed
  dsimp only at failed
  rw [resolved] at failed
  dsimp only at failed
  cases read : reader.read with
  | error other =>
    rw [read] at failed
    cases failed
    exact isRowFault_of_read read
  | ok result =>
    obtain ⟨row, after⟩ := result
    rw [read] at failed
    dsimp only at failed
    cases added : addRow progress index leaf row reader.position with
    | ok opened =>
      rw [added] at failed
      dsimp only at failed
      split at failed <;> cases failed
    | error other =>
      rw [added] at failed
      cases failed
      rw [addRow_eq progress index (leaf, row)] at added
      cases keeps : keptGroups progress index leaf row reader.position with
      | error refused =>
        rw [keeps] at added
        cases added
        exact isRowFault_of_keptGroups keeps
      | ok kept =>
        obtain rfl := Reader.after_of_read read
        obtain ⟨fits, _⟩ := stands.read read
        obtain ⟨opened, settled, _⟩ := steady.exists_settle reading here fits keeps
        rw [keeps] at added
        have failed := settled.symm.trans added
        cases failed

end Step

/-! ### A whole run -/

/-- A reader has moved on in its column, and not beyond the end. -/
structure Onward (start now : Reader) : Prop where
  column_eq : now.column = start.column
  position_le : start.position ≤ now.position
  within : start.position < now.position → now.position ≤ now.column.size

theorem Onward.refl (reader : Reader) : Onward reader reader :=
  ⟨rfl, Nat.le_refl _, fun moved => absurd moved (Nat.lt_irrefl _)⟩

/-- Every reader has moved on from where it started, and those of the leaves before the position were
read. -/
def AllOnward (starts : List Reader) (index : Nat) (progress : Progress) : Prop :=
  ∀ (position : Nat) (start now : Reader), starts[position]? = some start →
    progress.readers[position]? = some now → Onward start now ∧
      (position < index → start.position < now.position)

section Run

variable {schema : Schema} {leaves : List Node} {readers : List Reader} {index : Nat}
  {progress later : Progress} {target : Option Nat}

theorem AllOnward.start (readers : List Reader) : AllOnward readers 0 { readers } := by
  intro position start now stood stands
  obtain rfl := Option.some.inj (stood.symm.trans stands)
  exact ⟨.refl start, fun none => absurd none (Nat.not_lt_zero _)⟩

/-- **One step** moves one reader on by a row. -/
theorem AllOnward.step (onward : AllOnward readers index progress)
    (reads : Reads leaves index progress later target) :
    AllOnward readers (target.getD (index + 1)) later := by
  intro position start now stood stands
  have near := reads.moves.getD_le
  by_cases here : index = position
  · subst here
    obtain rfl := Option.some.inj (reads.getElem?_self.symm.trans stands)
    obtain ⟨before, _⟩ := onward index start _ stood reads.found
    have further : start.position < reads.reader.position + 1 := Nat.lt_succ_of_le before.position_le
    exact ⟨⟨before.column_eq, Nat.le_of_lt further, fun _ => Reader.position_lt_of_read reads.read⟩,
      fun _ => further⟩
  · rw [reads.getElem?_of_ne here] at stands
    obtain ⟨before, read⟩ := onward position start now stood stands
    exact ⟨before, fun less => read (by omega)⟩

/-- A reader that was read at least once, and whose next level counts as 0, is finished. -/
theorem Onward.finished {start now : Reader} (onward : Onward start now)
    (read : start.position < now.position) (starts : now.nextRepetition = 0) :
    Finished start now where
  column_eq := onward.column_eq
  read := read
  stands := by
    unfold Reader.nextRepetition at starts
    cases level : now.column.repetitionLevels[now.position]? with
    | none =>
      have beyond := Array.getElem?_eq_none_iff.mp level
      exact .inl (Nat.le_antisymm (onward.within read) beyond)
    | some value =>
      rw [level, Option.getD_some] at starts
      rw [starts]
      exact .inr rfl

/-- **What is known in every state of an assembly.** -/
theorem Reached.steady (reached : Reached schema (Machine.ofLeaves leaves) readers index progress)
    (standing : AllOver leaves readers) (reading : IsReading schema leaves)
    (order : Machine.IsOrder leaves) (inhabited : leaves ≠ []) :
    Steady leaves progress ∧ AllOver leaves progress.readers ∧
      ∃ leaf, leaves[index]? = some leaf := by
  induction reached with
  | start =>
    obtain ⟨leaf, rest, rfl⟩ := List.exists_cons_of_ne_nil inhabited
    exact ⟨.start _ _, standing, leaf, rfl⟩
  | next _ goesOn ih =>
    obtain ⟨steady, standing, leaf, here⟩ := ih
    obtain ⟨_, _, fails⟩ | ⟨other, target, reads, stepped⟩ := standing.step_cases reading order here
    · rw [goesOn] at fails
      cases fails
    · rw [goesOn] at stepped
      cases target <;> cases stepped
      exact ⟨steady.step reading standing reads, reads.allOver standing, reads.exists_leaf⟩

/-- A run that fails does so in a state that it reaches. -/
theorem Reached.exists_failed {machine : Machine} {fault : Fault} {afters : List Reader}
    (reached : Reached schema machine readers index progress)
    (ran : run schema machine index progress = (.error fault, afters)) :
    ∃ last before, Reached schema machine readers last before ∧
      step schema machine last before = .failed fault afters := by
  induction index, progress using run.induct schema machine with
  | case1 index progress following later goesOn ih =>
    rw [run_of_next goesOn] at ran
    exact ih (.next reached goesOn) ran
  | case2 index progress later ends =>
    rw [run_of_complete ends] at ran
    cases ran
  | case3 index progress other others fails =>
    rw [run_of_failed fails] at ran
    cases ran
    exact ⟨index, progress, reached, fails⟩

/-- **In every state of an assembly everything is in bounds.** -/
theorem Steady.exists_inBounds (steady : Steady leaves progress)
    (standing : AllOver leaves progress.readers) (reading : IsReading schema leaves)
    (among : ∀ leaf ∈ leaves, leaf ∈ schema.leaves) {leaf : Node}
    (here : leaves[index]? = some leaf) :
    ∃ reader, InBounds schema (Machine.ofLeaves leaves) index progress leaf reader := by
  obtain ⟨reader, found, stands⟩ := standing.getElem? here
  have inside : ∀ {leaf : Node}, leaf ∈ leaves → leaf.path ≠ [] :=
    fun member => Schema.path_ne_nil_of_mem_leaves (among _ member)
  have member := List.mem_of_getElem? here
  obtain ⟨rows, column, fits⟩ := stands
  have sound := Column.isSound_holding fits
  rw [← column] at sound
  refine ⟨reader, ?_, found, reading.known leaf member, inside member, ?_, ?_, sound.values_size,
    sound.definitions_size, fun row kept keeps => steady.length_kept_le reading here keeps, ?_⟩
  · exact Machine.getElem?_fields_ofLeaves.mpr ⟨leaf, here, rfl⟩
  · intro label onPath
    obtain ⟨above, listed, number⟩ := List.mem_map.mp
      (Schema.mem_ids_of_mem_path (List.mem_of_mem_filter (among leaf member)) onPath)
    unfold Schema.contains Schema.node?
    rw [List.find?_isSome]
    exact ⟨above, listed, by simpa using number⟩
  · intro before last comes
    have there := steady.read before last comes
    have member := List.mem_of_getElem? there
    exact ⟨Machine.getElem?_fields_ofLeaves.mpr ⟨last, there, rfl⟩, reading.known last member,
      inside member⟩
  · obtain ⟨before, after, parts, _⟩ := Machine.exists_parts_of_getElem? here
    refine ⟨_, parts ▸ Machine.state?_eq (parts ▸ reading.distinct), ?_⟩
    simp [Machine.stateOf]

/-- **Assembly over readers of leaves is safe**, whatever rows their columns hold. -/
theorem AllOver.isSafe (standing : AllOver leaves readers) (reading : IsReading schema leaves)
    (order : Machine.IsOrder leaves) (inhabited : leaves ≠ [])
    (among : ∀ leaf ∈ leaves, leaf ∈ schema.leaves)
    (fields : readers.map (·.field) = (Machine.ofLeaves leaves).fields) :
    IsSafe schema (Machine.ofLeaves leaves) readers where
  rowReads_le := rowReads_le 0 { readers }
  inBounds := by
    intro index progress reached
    obtain ⟨steady, standing, leaf, here⟩ := reached.steady standing reading order inhabited
    exact ⟨leaf, steady.exists_inBounds standing reading among here⟩
  faults := by
    intro fault afters failed
    unfold Schema.assemble at failed
    rw [if_pos fields] at failed
    cases ran : run schema (Machine.ofLeaves leaves) 0 { readers } with
    | mk result last =>
      rw [ran] at failed
      cases result with
      | error other =>
        cases failed
        obtain ⟨index, progress, reached, fails⟩ := Reached.exists_failed .start ran
        obtain ⟨steady, standing, leaf, here⟩ := reached.steady standing reading order inhabited
        exact standing.isRowFault_of_failed steady reading here fails
      | ok final =>
        dsimp only at failed
        cases checked : checkEnds last with
        | ok passes =>
          rw [checked] at failed
          cases failed
        | error other =>
          rw [checked] at failed
          cases failed
          obtain ⟨reader, _, refused⟩ := forM_eq_error checked
          by_cases starts : reader.nextRepetition = 0
          · rw [if_pos starts] at refused
            cases refused
          · rw [if_neg starts] at refused
            cases refused
            exact .endsInside _ _
  completes := by
    intro record afters assembled
    have steps : ∀ {index following progress later}, AllOver leaves progress.readers →
        AllOnward readers index progress → Reads leaves index progress later (some following) →
        AllOnward readers following later := fun _ onward reads => onward.step reads
    obtain ⟨last⟩ := standing.completes reading order inhabited (.start readers) steps assembled
    have onward := last.keeps.step last.reads
    have overLast := last.reads.allOver last.standing
    rw [last.readers_eq] at overLast
    refine ⟨overLast.count.trans standing.count.symm, fun position start now stood stands => ?_⟩
    -- the record ends behind the last leaf, so every leaf was read
    have ends : leaves.length = last.index + 1 := by
      cases last.reads.moves with
      | ends whole _ => exact whole
    have inside : position < (none : Option Nat).getD (last.index + 1) := by
      rw [Option.getD_none, ← ends, ← standing.count]
      exact (List.getElem?_eq_some_iff.mp stood).1
    have stays : last.later.readers[position]? = some now := by
      rw [last.readers_eq]
      exact stands
    obtain ⟨moved, read⟩ := onward position start now stood stays
    exact moved.finished (read inside) (last.starts now (List.mem_of_getElem? stands))

end Run

end Assembly

open Assembly

/-- **Assembly is safe**, whatever rows the columns were filled with and wherever the readers stand:
it asks for no more rows than are unread and one more, everything it looks up is there, it fails only
as rows can make it fail, and if it gives a record then every leaf was read, and every reader stands
where a record starts or at the end. -/
theorem Schema.assemble_isSafe {schema : Schema} (accepted : schema.IsAccepted)
    {projection : Projection} (own : projection.IsOf schema) {machine : Machine}
    (built : Machine.ofProjection schema projection = .ok machine) {readers : List Reader}
    (filled : ∀ reader ∈ readers, reader.column.IsFilled schema reader.field)
    (fields : readers.map (·.field) = machine.fields) : IsSafe schema machine readers := by
  have reading := isReading_selected accepted projection
  rw [Machine.ofProjection_eq accepted own] at built
  cases built
  have standing : AllOver (projection.selected schema) readers := by
    refine .of_filled reading filled ?_
    rw [fields, Machine.fields_ofLeaves]
  have order := Machine.isOrder_of_sublist accepted (projection.selected_sublist schema)
  exact standing.isSafe reading order (own.selected_ne_nil accepted)
    (fun _ member => List.mem_of_mem_filter member) fields

/-- The links of a name are read from beyond the end of their column. -/
def Sample.readersBeyondEnd : List Reader :=
  disagreeingLanguages ++ [(reader url [textRow "x" 0 2]).seek 7]

theorem Schema.assemble_isSafe_beyondEnd :
    Sample.documentType.IsAccepted ∧ Sample.namesOnly.IsOf Sample.documentType ∧
      Machine.ofProjection Sample.documentType Sample.namesOnly = .ok Sample.nameMachine ∧
      (∀ reader ∈ Sample.readersBeyondEnd,
        reader.column.IsFilled Sample.documentType reader.field) ∧
      Sample.readersBeyondEnd.map (·.field) = Sample.nameMachine.fields ∧
      IsSafe Sample.documentType Sample.nameMachine Sample.readersBeyondEnd := by
  have filled : ∀ reader ∈ Sample.readersBeyondEnd,
      reader.column.IsFilled Sample.documentType reader.field := by
    unfold Sample.readersBeyondEnd
    rw [List.forall_mem_append, List.forall_mem_singleton]
    exact ⟨Sample.isFilled_disagreeingLanguages, Sample.isFilled_reader rfl _⟩
  exact ⟨Sample.documentType_isAccepted, Sample.namesOnly_isOf, Sample.ofProjection_namesOnly, filled,
    rfl, assemble_isSafe Sample.documentType_isAccepted Sample.namesOnly_isOf
      Sample.ofProjection_namesOnly filled rfl⟩

end NestedColumns
