/-
Assembly over any columns.

Columns may contradict each other. Then nothing is known of the rows that are read but that each fits
its leaf (`Over`), and still a run that succeeds has taken steps of one kind only:

* `AllOver.step_cases` — a step that does not fail reads a row of the leaf at its position, and the
  level of the row behind it decides where reading goes on (`Reads`);
* `AllOver.completes` — what holds before the first step and is kept by every step holds before the
  step that completes the record.
-/

import NestedColumns.Proofs.Assembly.Run
import NestedColumns.Proofs.Column.Filled
import NestedColumns.Proofs.Machine.Moves

namespace NestedColumns.Assembly

/-! ### Readers -/

/-- A reader of some column of a leaf, at any position. -/
def Over (leaf : Node) (reader : Reader) : Prop :=
  ∃ rows, reader.column = Column.holding leaf rows ∧ ∀ row ∈ rows, row.Fits leaf

namespace Over

variable {leaf : Node} {reader after : Reader} {row : Row}

theorem field_eq (standing : Over leaf reader) : reader.field = leaf.id := by
  obtain ⟨rows, column, _⟩ := standing
  rw [Reader.field, column, Column.field_holding]

theorem seek (standing : Over leaf reader) (position : Nat) : Over leaf (reader.seek position) :=
  standing

/-- The row that is read fits the leaf, and its level is the one that was next. -/
theorem read (standing : Over leaf reader) (read : reader.read = .ok (row, after)) :
    row.Fits leaf ∧ row.repetition = reader.nextRepetition := by
  obtain ⟨rows, column, fits⟩ := standing
  have found : rows[reader.position]? = some row := by
    unfold Reader.read Reader.peek Column.get at read
    rw [column, Column.get?_holding fits] at read
    cases here : rows[reader.position]? with
    | none =>
      rw [here] at read
      cases read
    | some other =>
      rw [here] at read
      cases read
      rfl
  refine ⟨fits row (List.mem_of_getElem? found), ?_⟩
  unfold Reader.nextRepetition
  rw [column]
  simp [Column.holding, found]

theorem nextRepetition_le (standing : Over leaf reader) :
    reader.nextRepetition ≤ leaf.maxRepetition := by
  obtain ⟨rows, column, fits⟩ := standing
  unfold Reader.nextRepetition
  rw [column]
  cases here : rows[reader.position]? with
  | none => simp [Column.holding, here]
  | some row =>
    have within := (fits row (List.mem_of_getElem? here)).repetition_le
    simpa [Column.holding, here] using within

end Over

/-- Readers of columns of the given leaves, in order. -/
structure AllOver (leaves : List Node) (readers : List Reader) : Prop where
  count : readers.length = leaves.length
  each : ∀ {index : Nat} {leaf : Node} {reader : Reader}, leaves[index]? = some leaf →
    readers[index]? = some reader → Over leaf reader

namespace AllOver

variable {schema : Schema} {leaves : List Node} {readers : List Reader} {index : Nat} {leaf : Node}

theorem getElem? (standing : AllOver leaves readers) (found : leaves[index]? = some leaf) :
    ∃ reader, readers[index]? = some reader ∧ Over leaf reader := by
  have inside : index < readers.length := by
    rw [standing.count]
    exact (List.getElem?_eq_some_iff.mp found).1
  exact ⟨readers[index], List.getElem?_eq_getElem inside,
    standing.each found (List.getElem?_eq_getElem inside)⟩

theorem set {reader : Reader} (standing : AllOver leaves readers)
    (here : leaves[index]? = some leaf) (after : Over leaf reader) : AllOver leaves (readers.set index reader) where
  count := by rw [List.length_set, standing.count]
  each := by
    intro position other moved found taken
    by_cases same : index = position
    · subst same
      rw [here] at found
      cases found
      have inside := (List.getElem?_eq_some_iff.mp taken).1
      rw [List.length_set] at inside
      rw [List.getElem?_set_self inside] at taken
      cases taken
      exact after
    · rw [List.getElem?_set_ne same] at taken
      exact standing.each found taken

/-- Readers of filled columns, when their fields are the leaves in order. -/
theorem of_filled (reading : IsReading schema leaves)
    (filled : ∀ reader ∈ readers, reader.column.IsFilled schema reader.field)
    (fields : readers.map (·.field) = leaves.map (·.id)) : AllOver leaves readers where
  count := by simpa using congrArg List.length fields
  each := by
    intro index leaf reader found taken
    have same : reader.field = leaf.id := by
      have fieldAt := congrArg (·[index]?) fields
      simpa [found, taken] using fieldAt
    obtain ⟨other, rows, resolved, _, column, fits⟩ :=
      (filled reader (List.mem_of_getElem? taken)).exists_holding
    rw [same, reading.known leaf (List.mem_of_getElem? found)] at resolved
    cases resolved
    exact ⟨rows, column, fits⟩

end AllOver

/-! ### One step -/

/-- How many open groups stay open: none before the first row, and afterwards as many as the machine
comes along, when it goes on, or as many as stand above the owner of the level, when it goes back. -/
theorem keptGroups_eq_ok {progress : Progress} {index : Nat} {node : Node} {row : Row}
    {position kept : Nat} (keeps : keptGroups progress index node row position = .ok kept) :
    (progress.previous = none ∧ kept = 0) ∨
      ∃ before last, progress.previous = some (before, last) ∧
        (before < index ∧ kept = min (last.commonAncestorPath node).length progress.chain.length ∨
          index ≤ before ∧ Path.ownerIndex row.repetition node.path = some kept) := by
  unfold keptGroups at keeps
  cases comes : progress.previous with
  | none =>
    rw [comes] at keeps
    dsimp only at keeps
    by_cases starts : row.repetition = 0
    · rw [if_pos starts] at keeps
      cases keeps
      exact .inl ⟨rfl, rfl⟩
    · rw [if_neg starts] at keeps
      cases keeps
  | some previous =>
    obtain ⟨before, last⟩ := previous
    rw [comes] at keeps
    dsimp only at keeps
    refine .inr ⟨before, last, rfl, ?_⟩
    by_cases onward : before < index
    · rw [if_pos onward] at keeps
      cases keeps
      exact .inl ⟨onward, rfl⟩
    · rw [if_neg onward] at keeps
      refine .inr ⟨Nat.le_of_not_lt onward, ?_⟩
      cases owns : Path.ownerIndex row.repetition node.path with
      | none =>
        rw [owns] at keeps
        cases keeps
      | some owner =>
        rw [owns] at keeps
        dsimp only at keeps
        by_cases deep : min owner (groupsOf node).length ≤ progress.chain.length
        · rw [if_pos deep] at keeps
          exact congrArg some (Except.ok.inj keeps)
        · rw [if_neg deep] at keeps
          cases keeps

/-- One step: a row of the leaf at a position in reading order is read and added to the record, and
reading goes on at another position or ends. -/
structure Reads (leaves : List Node) (index : Nat) (progress later : Progress)
    (target : Option Nat) where
  leaf : Node
  reader : Reader
  row : Row
  here : leaves[index]? = some leaf
  found : progress.readers[index]? = some reader
  read : reader.read = .ok (row, reader.seek (reader.position + 1))
  added : addRow progress index leaf row reader.position = .ok (later.chain, later.record)
  readers_eq : later.readers = progress.readers.set index (reader.seek (reader.position + 1))
  previous_eq : later.previous = some (index, leaf)
  moves : Machine.Moves leaves index leaf (reader.seek (reader.position + 1)).nextRepetition target
  goes : ((Machine.ofLeaves leaves).next? leaf.id
    (reader.seek (reader.position + 1)).nextRepetition).bind
      (Machine.ofLeaves leaves).position? = target

section Step

variable {schema : Schema} {leaves : List Node} {index : Nat} {progress later : Progress}
  {target : Option Nat}

namespace Reads

theorem allOver (reads : Reads leaves index progress later target)
    (standing : AllOver leaves progress.readers) : AllOver leaves later.readers := by
  rw [reads.readers_eq]
  exact standing.set reads.here ((standing.each reads.here reads.found).seek _)

/-- The reader of the leaf moves on. -/
theorem getElem?_self (reads : Reads leaves index progress later target) :
    later.readers[index]? = some (reads.reader.seek (reads.reader.position + 1)) := by
  rw [reads.readers_eq]
  exact List.getElem?_set_self (List.getElem?_eq_some_iff.mp reads.found).1

/-- The other readers stay where they are. -/
theorem getElem?_of_ne (reads : Reads leaves index progress later target) {position : Nat}
    (other : index ≠ position) : later.readers[position]? = progress.readers[position]? := by
  rw [reads.readers_eq]
  exact List.getElem?_set_ne other

/-- The row is added to the groups that stay open. -/
theorem exists_kept (reads : Reads leaves index progress later target) :
    ∃ kept, keptGroups progress index reads.leaf reads.row reads.reader.position = .ok kept ∧
      settle (progress.chain.take kept) progress.record (reads.leaf, reads.row) =
        .ok (later.chain, later.record) := by
  have added := reads.added
  rw [addRow_eq progress index (reads.leaf, reads.row)] at added
  exact bind_eq_ok.mp added

/-- There is a leaf where reading goes on. -/
theorem exists_leaf {following : Nat} (reads : Reads leaves index progress later (some following)) :
    ∃ leaf, leaves[following]? = some leaf := by
  cases reads.moves with
  | onward there _ => exact ⟨_, there⟩
  | back _ there _ _ => exact ⟨_, there⟩

end Reads

/-- **A step** fails, or reads a row and goes on where the machine says. -/
theorem AllOver.step_cases (standing : AllOver leaves progress.readers)
    (reading : IsReading schema leaves) (order : Machine.IsOrder leaves) {leaf : Node}
    (here : leaves[index]? = some leaf) :
    (∃ fault readers, step schema (Machine.ofLeaves leaves) index progress = .failed fault readers) ∨
      ∃ later target, ∃ _ : Reads leaves index progress later target,
        step schema (Machine.ofLeaves leaves) index progress =
          match target with
          | some following => .next following later
          | none => .complete later := by
  obtain ⟨reader, found, stands⟩ := standing.getElem? here
  have resolved : schema.resolve reader.field = .ok leaf := by
    rw [stands.field_eq]
    exact reading.known leaf (List.mem_of_getElem? here)
  unfold step
  rw [found]
  dsimp only
  rw [resolved]
  dsimp only
  cases read : reader.read with
  | error fault => exact .inl ⟨fault, _, rfl⟩
  | ok result =>
    obtain ⟨row, after⟩ := result
    obtain rfl := Reader.after_of_read read
    dsimp only
    cases added : addRow progress index leaf row reader.position with
    | error fault => exact .inl ⟨fault, _, rfl⟩
    | ok opened =>
      obtain ⟨target, moves, goes⟩ :=
        order.exists_moves here (stands.seek (reader.position + 1)).nextRepetition_le
      refine .inr ⟨⟨_, opened.2, opened.1, some (index, leaf)⟩, target,
        ⟨leaf, reader, row, here, found, read, added, rfl, rfl, moves, goes⟩, ?_⟩
      rw [← stands.field_eq] at goes
      dsimp only
      rw [goes]
      cases target <;> rfl

end Step

/-! ### A whole run -/

/-- What every step keeps holds before the step that completes a run. -/
theorem exists_complete_of_run {schema : Schema} {machine : Machine} {Keeps : Nat → Progress → Prop}
    (steps : ∀ {index following progress later}, Keeps index progress →
      step schema machine index progress = .next following later → Keeps following later)
    {index : Nat} {progress final : Progress} {readers : List Reader} (first : Keeps index progress)
    (ran : run schema machine index progress = (.ok final, readers)) :
    ∃ last before, Keeps last before ∧ step schema machine last before = .complete final ∧
      readers = final.readers := by
  induction index, progress using run.induct schema machine with
  | case1 index progress following later goesOn ih =>
    rw [run_of_next goesOn] at ran
    exact ih (steps first goesOn) ran
  | case2 index progress later ends =>
    rw [run_of_complete ends] at ran
    cases ran
    exact ⟨index, progress, first, ends, rfl⟩
  | case3 index progress fault others fails =>
    rw [run_of_failed fails] at ran
    cases ran

/-- What an assembly that succeeds consists of. -/
theorem assemble_eq_ok {schema : Schema} {machine : Machine} {readers afters : List Reader}
    {record : Record} (assembled : schema.assemble machine readers = (.ok record, afters)) :
    readers.map (·.field) = machine.fields ∧
      ∃ final, run schema machine 0 { readers } = (.ok final, afters) ∧ final.record = record ∧
        ∀ reader ∈ afters, reader.nextRepetition = 0 := by
  unfold Schema.assemble at assembled
  by_cases fields : readers.map (·.field) = machine.fields
  case neg =>
    rw [if_neg fields] at assembled
    cases assembled
  rw [if_pos fields] at assembled
  cases ran : run schema machine 0 { readers } with
  | mk result last =>
    rw [ran] at assembled
    cases result with
    | error fault => cases assembled
    | ok final =>
      dsimp only at assembled
      cases checked : checkEnds last with
      | error fault =>
        rw [checked] at assembled
        cases assembled
      | ok passes =>
        rw [checked] at assembled
        cases assembled
        refine ⟨fields, final, rfl, rfl, fun reader member => ?_⟩
        by_contra inside
        have passes := forM_eq_ok.mp checked reader member
        rw [if_neg inside] at passes
        cases passes

/-- What is left of an assembly that succeeds: its last step, which ends the record. -/
structure Completes (leaves : List Node) (Keeps : Nat → Progress → Prop) (record : Record)
    (afters : List Reader) where
  index : Nat
  progress : Progress
  later : Progress
  reads : Reads leaves index progress later none
  keeps : Keeps index progress
  standing : AllOver leaves progress.readers
  record_eq : later.record = record
  readers_eq : later.readers = afters
  starts : ∀ reader ∈ afters, reader.nextRepetition = 0

/-- **What every step keeps holds before the step that completes the record.** -/
theorem AllOver.completes {schema : Schema} {leaves : List Node} {readers afters : List Reader}
    {record : Record} {Keeps : Nat → Progress → Prop} (standing : AllOver leaves readers)
    (reading : IsReading schema leaves) (order : Machine.IsOrder leaves) (inhabited : leaves ≠ [])
    (first : Keeps 0 { readers })
    (steps : ∀ {index following progress later}, AllOver leaves progress.readers →
      Keeps index progress → Reads leaves index progress later (some following) →
      Keeps following later)
    (assembled : schema.assemble (Machine.ofLeaves leaves) readers = (.ok record, afters)) :
    Nonempty (Completes leaves Keeps record afters) := by
  obtain ⟨_, final, ran, recordEq, starts⟩ := assemble_eq_ok assembled
  -- between two steps the readers stand over the leaves, and one of these is read next
  let Stands (index : Nat) (progress : Progress) : Prop :=
    Keeps index progress ∧ AllOver leaves progress.readers ∧ ∃ leaf, leaves[index]? = some leaf
  have stands : Stands 0 { readers } := by
    obtain ⟨leaf, rest, rfl⟩ := List.exists_cons_of_ne_nil inhabited
    exact ⟨first, standing, leaf, rfl⟩
  have stepsStand : ∀ {index following progress later}, Stands index progress →
      step schema (Machine.ofLeaves leaves) index progress = .next following later →
      Stands following later := by
    rintro index following progress later ⟨keeps, standing, leaf, here⟩ goesOn
    obtain ⟨_, _, fails⟩ | ⟨other, target, reads, stepped⟩ := standing.step_cases reading order here
    · rw [goesOn] at fails
      cases fails
    · rw [goesOn] at stepped
      cases target <;> cases stepped
      exact ⟨steps standing keeps reads, reads.allOver standing, reads.exists_leaf⟩
  obtain ⟨index, progress, ⟨keeps, standing, leaf, here⟩, ends, readersEq⟩ :=
    exists_complete_of_run stepsStand stands ran
  obtain ⟨_, _, fails⟩ | ⟨other, target, reads, stepped⟩ := standing.step_cases reading order here
  · rw [ends] at fails
    cases fails
  · rw [ends] at stepped
    cases target <;> cases stepped
    exact ⟨⟨index, progress, _, reads, keeps, standing, recordEq, readersEq.symm, starts⟩⟩

/-- The machine of a projection is that of the selected leaves, and it takes only readers of these. -/
theorem allOver_of_assemble {schema : Schema} (accepted : schema.IsAccepted)
    {projection : Projection} (own : projection.IsOf schema) {machine : Machine}
    (built : Machine.ofProjection schema projection = .ok machine) {readers afters : List Reader}
    (filled : ∀ reader ∈ readers, reader.column.IsFilled schema reader.field) {record : Record}
    (assembled : schema.assemble machine readers = (.ok record, afters)) :
    machine = Machine.ofLeaves (projection.selected schema) ∧
      AllOver (projection.selected schema) readers := by
  rw [Machine.ofProjection_eq accepted own] at built
  cases built
  have fields := (assemble_eq_ok assembled).1
  rw [Machine.fields_ofLeaves] at fields
  exact ⟨rfl, .of_filled (isReading_selected accepted projection) filled fields⟩

end NestedColumns.Assembly

/-! ### Sample columns -/

namespace NestedColumns.Sample

/-- The path of the languages of a document. -/
def languagePath : Path :=
  [⟨5, "Name", .repeated⟩, ⟨6, "Language", .repeated⟩]

def code : Node :=
  ⟨languagePath ++ [⟨7, "Code", .required⟩], 3, .leaf ⟨7, "Code", .required⟩ .string⟩

def country : Node :=
  ⟨languagePath ++ [⟨8, "Country", .optional⟩], 4, .leaf ⟨8, "Country", .optional⟩ .string⟩

def url : Node :=
  ⟨[⟨5, "Name", .repeated⟩, ⟨9, "Url", .optional⟩], 5, .leaf ⟨9, "Url", .optional⟩ .string⟩

/-- A row with a text. -/
def textRow (text : String) (repetition definition : Level) : Row :=
  ⟨some (.scalar (.string text)), repetition, definition⟩

/-- A row without a value. -/
def nullRow (repetition definition : Level) : Row :=
  ⟨none, repetition, definition⟩

/-- A reader before the first of some rows, as far as the column of the leaf takes them. -/
def reader (leaf : Node) (rows : List Row) : Reader :=
  ⟨((Column.holding leaf []).insertAll rows).1, 0⟩

theorem isFilled_reader {leaf : Node}
    (made : Column.new documentType leaf.id = .ok (Column.holding leaf [])) (rows : List Row) :
    (reader leaf rows).column.IsFilled documentType (reader leaf rows).field := by
  have filled := (Column.IsFilled.new made).insertAll rows
  rw [Reader.field, reader, filled.field_eq]
  exact filled

theorem exists_assemble {schema : Schema} {machine : Machine} {readers : List Reader}
    (given : (schema.assemble machine readers).1.toBool = true) :
    ∃ record afters, schema.assemble machine readers = (.ok record, afters) := by
  cases assembled : schema.assemble machine readers with
  | mk result afters =>
    rw [assembled] at given
    cases result with
    | error fault => cases given
    | ok record => exact ⟨record, afters, rfl⟩

/-- The selection of all leaves below names. -/
def namesOnly : Projection :=
  ⟨[7, 8, 9]⟩

theorem namesOnly_isOf : namesOnly.IsOf documentType := by
  have made : Projection.ofIds documentType [7, 8, 9] = .ok namesOnly :=
    (Projection.ofIds_eq_ok documentType_isAccepted).mpr (by decide +kernel)
  exact .ofIds made

def nameMachine : Machine :=
  Machine.ofLeaves [code, country, url]

theorem ofProjection_namesOnly : Machine.ofProjection documentType namesOnly = .ok nameMachine := rfl

end NestedColumns.Sample
