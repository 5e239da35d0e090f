/-
What an assembly consumes.

Every reader stands before the first row of a record of its column, and the columns may contradict
each other. If assembly gives a record, then every reader has read the rows of its record, and stands
before the first row of a record again or at the end of its column (`consumes_of_assemble`).

It has read no more than that one record if its leaf stands apart (`StandsApart`): if no repeated
group lies around the leaves before and after it in reading order, as is always so for the first and
the last. Any other leaf is also read when reading goes on to it from the leaf before, while an outer
group repeats; the row that is read then is not compared with the level at which that group repeats,
and may be the first row of the next record (`not_consumes_one_of_assemble`).

The invariant is that of one reader at a time (`Advanced`). Where a leaf stands apart, reading comes
back to an earlier leaf only from the leaf itself, so its own next row is known to go on with the
record, and stays next until it is read.
-/

import NestedColumns.Proofs.Assembly.Steps

namespace NestedColumns

namespace Assembly

open Machine (Moves IsOrder)

/-- The leaves before a position share no repeated group with those after it. -/
def StandsApart (leaves : List Node) (position : Nat) : Prop :=
  ∀ {i j : Nat} {x y : Node}, i < position → position < j → leaves[i]? = some x →
    leaves[j]? = some y → x.commonRepetition y = 0

/-- Reading came to the leaf that is read next from an earlier one. -/
def CameOnward (index : Nat) (progress : Progress) : Prop :=
  ∃ before last, progress.previous = some (before, last) ∧ before < index

/-- **What is known of the reader at one position** when the leaf at `index` is read next. -/
structure Advanced (leaves : List Node) (index : Nat) (progress : Progress) (position : Nat)
    (start now : Reader) : Prop where
  column_eq : now.column = start.column
  position_le : start.position ≤ now.position
  within : now.position ≤ now.column.size
  fresh : progress.previous = none → now.position = start.position
  lt_of_lt : position < index → start.position < now.position
  inside : StandsApart leaves position → ∀ row, start.position < row → row < now.position →
    start.column.repetitionLevels[row]? ≠ some 0
  goesOn : StandsApart leaves position → start.position < now.position →
    (index < position ∨ index = position ∧ CameOnward index progress) → 0 < now.nextRepetition

theorem Advanced.refl {reader : Reader} (inside : reader.position ≤ reader.column.size)
    (leaves : List Node) (readers : List Reader) (position : Nat) :
    Advanced leaves 0 { readers } position reader reader where
  column_eq := rfl
  position_le := Nat.le_refl _
  within := inside
  fresh := fun _ => rfl
  lt_of_lt := fun none => absurd none (Nat.not_lt_zero _)
  inside := fun _ _ above below => absurd (Nat.lt_trans above below) (Nat.lt_irrefl _)
  goesOn := fun _ read => absurd read (Nat.lt_irrefl _)

section Step

variable {leaves : List Node} {index position : Nat} {progress later : Progress}
  {target : Option Nat} {start now after : Reader}

/-- A row that is read on the way back goes on with the record. -/
theorem Reads.repetition_pos (reads : Reads leaves index progress later target)
    (some : progress.previous ≠ none) (back : ¬ CameOnward index progress) :
    0 < reads.row.repetition := by
  obtain ⟨kept, keeps, _⟩ := reads.exists_kept
  rcases keptGroups_eq_ok keeps with ⟨none, _⟩ | ⟨before, last, comes, ⟨onward, _⟩ | ⟨_, owns⟩⟩
  · exact absurd none some
  · exact absurd ⟨before, last, comes, onward⟩ back
  · exact (Path.ownerFrom_eq_some_iff.mp owns).lt

/-- **One step**, seen from the reader that reads. -/
theorem Advanced.read (advanced : Advanced leaves index progress index start now)
    (standing : AllOver leaves progress.readers) (reads : Reads leaves index progress later target)
    (found : progress.readers[index]? = some now) (found' : later.readers[index]? = some after) :
    Advanced leaves (target.getD (index + 1)) later index start after := by
  obtain rfl : reads.reader = now := Option.some.inj (reads.found.symm.trans found)
  obtain rfl := Option.some.inj (reads.getElem?_self.symm.trans found')
  obtain ⟨_, levelEq⟩ := (standing.each reads.here reads.found).read reads.read
  have further : start.position < reads.reader.position + 1 := Nat.lt_succ_of_le advanced.position_le
  refine
    { column_eq := advanced.column_eq
      position_le := Nat.le_of_lt further
      within := Reader.position_lt_of_read reads.read
      fresh := fun none => by rw [reads.previous_eq] at none; cases none
      lt_of_lt := fun _ => further
      inside := fun apart row above below => ?_
      goesOn := fun _ _ expects => ?_ }
  · rcases Nat.lt_or_eq_of_le (Nat.le_of_lt_succ below) with earlier | rfl
    · exact advanced.inside apart row above earlier
    · -- the row that is read now is not the first of its record to be read
      have positive : 0 < reads.reader.nextRepetition := by
        by_cases onward : CameOnward index progress
        · exact advanced.goesOn apart above (.inr ⟨rfl, onward⟩)
        · rw [← levelEq]
          exact reads.repetition_pos (fun none => Nat.ne_of_gt above (advanced.fresh none)) onward
      intro starts
      unfold Reader.nextRepetition at positive
      rw [advanced.column_eq, starts, Option.getD_some] at positive
      exact Nat.lt_irrefl 0 positive
  · have back : target.getD (index + 1) ≤ index := by
      rcases expects with less | ⟨same, _⟩
      · exact Nat.le_of_lt less
      · exact Nat.le_of_eq same
    obtain ⟨_, _, positive, _⟩ := reads.moves.exists_of_le back
    exact positive

/-- **One step**, seen from a reader that stays where it is. -/
theorem Advanced.skip (advanced : Advanced leaves index progress position start now)
    (reads : Reads leaves index progress later target) (other : index ≠ position) :
    Advanced leaves (target.getD (index + 1)) later position start now := by
  have near := reads.moves.getD_le
  refine
    { column_eq := advanced.column_eq
      position_le := advanced.position_le
      within := advanced.within
      fresh := fun none => by rw [reads.previous_eq] at none; cases none
      lt_of_lt := fun before => advanced.lt_of_lt (by omega)
      inside := advanced.inside
      goesOn := fun apart read expects => ?_ }
  -- a move over the position from behind would be at a level that the leaves on both sides share
  have before : index < position := by
    by_contra behind
    have behind : position < index := by omega
    rcases expects with less | ⟨same, before, last, comes, onward⟩
    · obtain ⟨first, there, positive, shared⟩ := reads.moves.exists_of_le (by omega)
      rw [apart less behind there reads.here] at shared
      exact absurd positive (Nat.not_lt_of_le shared)
    · rw [reads.previous_eq] at comes
      cases comes
      omega
  exact advanced.goesOn apart read (.inl before)

/-- Every reader has advanced from where it started. -/
def AllAdvanced (leaves : List Node) (starts : List Reader) (index : Nat) (progress : Progress) :
    Prop :=
  ∀ position start now, starts[position]? = some start →
    progress.readers[position]? = some now → Advanced leaves index progress position start now

theorem AllAdvanced.step {starts : List Reader} (advanced : AllAdvanced leaves starts index progress)
    (standing : AllOver leaves progress.readers) (reads : Reads leaves index progress later target) :
    AllAdvanced leaves starts (target.getD (index + 1)) later := by
  intro position start after stood stands
  by_cases here : index = position
  · subst here
    exact (advanced index start _ stood reads.found).read standing reads reads.found stands
  · have stays := stands
    rw [reads.getElem?_of_ne here] at stays
    exact (advanced position start after stood stays).skip reads here

end Step

/-! ### A whole record -/

/-- A reader that stood before the first row of a record has read all rows of that record, and stands
at a boundary between records; if `one` holds, it has read no more. -/
structure Consumes (one : Prop) (before after : Reader) : Prop where
  column_eq : after.column = before.column
  boundary : before.column.IsBoundary after.position
  rows : ∀ record, before.column.recordStart? record = some before.position →
    ∃ stop, before.column.recordRows? record = some (before.position, stop) ∧
      stop ≤ after.position ∧ (one → after.position = stop)

/-- Where the next level of a reader counts as 0, a record starts or the column ends. -/
theorem Over.isBoundary {leaf : Node} {reader : Reader} (standing : Over leaf reader)
    (within : reader.position ≤ reader.column.size) (starts : reader.nextRepetition = 0) :
    reader.column.IsBoundary reader.position := by
  obtain ⟨rows, column, _⟩ := standing
  cases level : reader.column.repetitionLevels[reader.position]? with
  | none => exact .inl (Nat.le_antisymm within (Array.getElem?_eq_none_iff.mp level))
  | some value =>
    unfold Reader.nextRepetition at starts
    rw [level, Option.getD_some] at starts
    rw [starts, column] at level
    rw [column]
    exact .inr (Column.exists_recordStart?_iff.mpr level)

/-- A reader that has advanced to a boundary has read a record. -/
theorem Advanced.consumes {leaves : List Node} {index position : Nat} {progress : Progress}
    {leaf : Node} {start now : Reader} (advanced : Advanced leaves index progress position start now)
    (standing : Over leaf now) (read : position < index) (starts : now.nextRepetition = 0) :
    Consumes (StandsApart leaves position) start now := by
  have further := advanced.lt_of_lt read
  have boundary := standing.isBoundary advanced.within starts
  have columnEq := advanced.column_eq
  obtain ⟨rows, column, _⟩ := standing
  rw [columnEq] at column boundary
  refine ⟨columnEq, boundary, fun record begins => ?_⟩
  rw [column] at begins boundary ⊢
  obtain ⟨stop, rowsEq, behind, ends, least⟩ := Column.exists_recordRows? begins
  have reached := least now.position boundary further
  refine ⟨stop, rowsEq, reached, fun apart => ?_⟩
  -- no record starts among the rows that were read, and the column does not end there
  by_contra beyond
  have before : stop < now.position := Nat.lt_of_le_of_ne reached (Ne.symm beyond)
  rcases ends with whole | ⟨next, starts⟩
  · have inside := advanced.within
    rw [columnEq, column] at inside
    omega
  · have level := Column.exists_recordStart?_iff.mp ⟨next, starts⟩
    rw [← column] at level
    exact advanced.inside apart stop behind before level

/-- **A run that gives a record** leaves every reader behind a record of its column. -/
theorem AllOver.consumes {schema : Schema} {leaves : List Node} {readers afters : List Reader}
    {record : Record} (standing : AllOver leaves readers) (reading : IsReading schema leaves)
    (order : IsOrder leaves) (inhabited : leaves ≠ [])
    (within : ∀ reader ∈ readers, reader.position ≤ reader.column.size)
    (assembled : schema.assemble (Machine.ofLeaves leaves) readers = (.ok record, afters)) :
    afters.length = readers.length ∧
      ∀ position before after, readers[position]? = some before → afters[position]? = some after →
        Consumes (StandsApart leaves position) before after := by
  have first : AllAdvanced leaves readers 0 { readers } := by
    intro position start now stood stands
    obtain rfl := Option.some.inj (stood.symm.trans stands)
    exact .refl (within start (List.mem_of_getElem? stood)) leaves readers position
  have steps : ∀ {index following progress later}, AllOver leaves progress.readers →
      AllAdvanced leaves readers index progress →
      Reads leaves index progress later (some following) →
      AllAdvanced leaves readers following later :=
    fun standing advanced reads => advanced.step standing reads
  obtain ⟨last⟩ := standing.completes reading order inhabited first steps assembled
  have overLast := last.reads.allOver last.standing
  have advanced := last.keeps.step last.standing last.reads
  rw [last.readers_eq] at overLast
  refine ⟨overLast.count.trans standing.count.symm, fun position before after stood stands => ?_⟩
  have inside : position < leaves.length := by
    rw [← standing.count]
    exact (List.getElem?_eq_some_iff.mp stood).1
  have ends : leaves.length = last.index + 1 := by
    cases last.reads.moves with
    | ends whole _ => exact whole
  have stays : last.later.readers[position]? = some after := by
    rw [last.readers_eq]
    exact stands
  have read : position < (none : Option Nat).getD (last.index + 1) := by
    rw [Option.getD_none, ← ends]
    exact inside
  exact (advanced position before after stood stays).consumes
    (overLast.each (List.getElem?_eq_getElem inside) stands) read
    (last.starts after (List.mem_of_getElem? stands))

end Assembly

namespace Projection

/-- The fields before and after a position of a projection share no repeated group. The first and the
last field have none on one side. -/
def StandsApart (projection : Projection) (schema : Schema) (position : Nat) : Prop :=
  ∀ i before after, i + 1 = position → projection.fields[i]? = some before →
    projection.fields[position + 1]? = some after →
    schema.commonRepetition? before after = some 0

theorem StandsApart.selected {projection : Projection} {schema : Schema} {position : Nat}
    (apart : projection.StandsApart schema position) (accepted : schema.IsAccepted)
    (own : projection.IsOf schema) : Assembly.StandsApart (projection.selected schema) position := by
  intro i j x y left right atX atY
  have order := Machine.isOrder_of_sublist accepted (projection.selected_sublist schema)
  obtain ⟨inside, _⟩ := List.getElem?_eq_some_iff.mp atY
  have reached : ∀ k ≤ j, ∃ leaf ∈ schema.nodes, (projection.selected schema)[k]? = some leaf ∧
      projection.fields[k]? = some leaf.id := by
    intro k within
    have found := List.getElem?_eq_getElem (Nat.lt_of_le_of_lt within inside)
    refine ⟨_, mem_nodes_of_mem_selected (List.mem_of_getElem? found), found, ?_⟩
    rw [own.fields_eq accepted, List.getElem?_map, found, Option.map_some]
  obtain ⟨between, rfl⟩ := Nat.exists_eq_add_of_lt left
  obtain ⟨before, member, atBefore, fieldBefore⟩ := reached (i + between) (by omega)
  obtain ⟨after, member', atAfter, fieldAfter⟩ := reached (i + between + 1 + 1) (by omega)
  have shares := apart (i + between) _ _ rfl fieldBefore fieldAfter
  rw [accepted.commonRepetition?_id member member'] at shares
  have nothing := order.commonRepetition_le atX atBefore atAfter atY (by omega) (by omega) (by omega)
  rw [Option.some.inj shares] at nothing
  exact Nat.le_zero.mp nothing

end Projection

/-- Codes and links of two names, and two records without countries. -/
def Sample.twoRecordsOfCountries : List Reader :=
  [ reader code [textRow "a" 0 2, textRow "b" 1 2],
    reader country [nullRow 0 2, nullRow 0 2],
    reader url [textRow "x" 0 2, textRow "y" 1 2] ]

theorem Sample.isFilled_twoRecordsOfCountries :
    ∀ reader ∈ twoRecordsOfCountries, reader.column.IsFilled documentType reader.field := by
  unfold twoRecordsOfCountries
  rw [List.forall_mem_cons, List.forall_mem_cons, List.forall_mem_singleton]
  exact ⟨isFilled_reader rfl _, isFilled_reader rfl _, isFilled_reader rfl _⟩

theorem Sample.exists_assemble_twoRecordsOfCountries :
    ∃ record afters, documentType.assemble nameMachine twoRecordsOfCountries = (.ok record, afters) ∧
      afters.map (·.position) = [2, 2, 2] := by
  have positions : (documentType.assemble nameMachine twoRecordsOfCountries).2.map (·.position) =
      [2, 2, 2] := by decide +kernel
  obtain ⟨record, afters, assembled⟩ : ∃ record afters,
      documentType.assemble nameMachine twoRecordsOfCountries = (.ok record, afters) :=
    exists_assemble (by decide +kernel)
  rw [assembled] at positions
  exact ⟨record, afters, assembled, positions⟩

theorem Sample.starts_twoRecordsOfCountries : ∀ reader ∈ twoRecordsOfCountries,
    ∃ index, reader.column.recordStart? index = some reader.position := by
  intro reader member
  refine ⟨0, ?_⟩
  have each : ∀ reader ∈ twoRecordsOfCountries, reader.column.recordStart? 0 = some reader.position := by
    decide +kernel
  exact each reader member

open Assembly

/-- **A record that is assembled consumes a record of every column**, and no more than that of a
column that stands apart, whatever rows the columns were filled with. -/
theorem Schema.consumes_of_assemble {schema : Schema} (accepted : schema.IsAccepted)
    {projection : Projection} (own : projection.IsOf schema) {machine : Machine}
    (built : Machine.ofProjection schema projection = .ok machine) {readers afters : List Reader}
    (filled : ∀ reader ∈ readers, reader.column.IsFilled schema reader.field)
    (starts : ∀ reader ∈ readers,
      ∃ index, reader.column.recordStart? index = some reader.position)
    {record : Record} (assembled : schema.assemble machine readers = (.ok record, afters)) :
    afters.length = readers.length ∧
      ∀ position before after, readers[position]? = some before → afters[position]? = some after →
        Consumes (projection.StandsApart schema position) before after := by
  have order := Machine.isOrder_of_sublist accepted (projection.selected_sublist schema)
  obtain ⟨rfl, standing⟩ := allOver_of_assemble accepted own built filled assembled
  have within : ∀ reader ∈ readers, reader.position ≤ reader.column.size := by
    intro reader member
    obtain ⟨index, starts⟩ := starts reader member
    obtain ⟨leaf, rows, _, _, column, _⟩ := (filled reader member).exists_holding
    rw [column] at starts ⊢
    exact Nat.le_of_lt (Column.lt_size_of_recordStart? starts)
  obtain ⟨count, each⟩ := standing.consumes (isReading_selected accepted projection) order
    (own.selected_ne_nil accepted) within assembled
  refine ⟨count, fun position before after stood stands => ?_⟩
  obtain ⟨columnEq, boundary, rows⟩ := each position before after stood stands
  refine ⟨columnEq, boundary, fun record begins => ?_⟩
  obtain ⟨stop, rowsEq, reached, exactly⟩ := rows record begins
  exact ⟨stop, rowsEq, reached, fun apart => exactly (apart.selected accepted own)⟩

theorem Schema.consumes_twoRecordsOfCountries :
    Sample.documentType.IsAccepted ∧ Sample.namesOnly.IsOf Sample.documentType ∧
      Machine.ofProjection Sample.documentType Sample.namesOnly = .ok Sample.nameMachine ∧
      (∀ reader ∈ Sample.twoRecordsOfCountries,
        reader.column.IsFilled Sample.documentType reader.field) ∧
      (∀ reader ∈ Sample.twoRecordsOfCountries,
        ∃ index, reader.column.recordStart? index = some reader.position) ∧
      ∃ record afters,
        Sample.documentType.assemble Sample.nameMachine Sample.twoRecordsOfCountries =
          (.ok record, afters) ∧
        ∀ position before after, Sample.twoRecordsOfCountries[position]? = some before →
          afters[position]? = some after →
          Consumes (Sample.namesOnly.StandsApart Sample.documentType position) before after := by
  obtain ⟨record, afters, assembled, _⟩ := Sample.exists_assemble_twoRecordsOfCountries
  refine ⟨Sample.documentType_isAccepted, Sample.namesOnly_isOf, Sample.ofProjection_namesOnly,
    Sample.isFilled_twoRecordsOfCountries, Sample.starts_twoRecordsOfCountries, record, afters,
    assembled, ?_⟩
  exact (consumes_of_assemble Sample.documentType_isAccepted Sample.namesOnly_isOf
    Sample.ofProjection_namesOnly Sample.isFilled_twoRecordsOfCountries
    Sample.starts_twoRecordsOfCountries assembled).2

/-- A leaf that does not stand apart may be read beyond its record: here the reader of the countries
goes on to the end of the second one. -/
theorem Schema.not_consumes_one_of_assemble :
    ¬ ∀ (schema : Schema) (projection : Projection) (machine : Machine)
        (readers afters : List Reader) (record : Record),
        schema.IsAccepted → projection.IsOf schema →
        Machine.ofProjection schema projection = .ok machine →
        (∀ reader ∈ readers, reader.column.IsFilled schema reader.field) →
        (∀ reader ∈ readers, ∃ index, reader.column.recordStart? index = some reader.position) →
        schema.assemble machine readers = (.ok record, afters) →
        ∀ (position index stop : Nat) (before after : Reader), readers[position]? = some before →
          afters[position]? = some after →
          before.column.recordRows? index = some (before.position, stop) → after.position = stop := by
  intro always
  obtain ⟨record, afters, assembled, positions⟩ := Sample.exists_assemble_twoRecordsOfCountries
  have positionAt := congrArg (·[1]?) positions
  obtain ⟨after, stands, ends⟩ : ∃ after, afters[1]? = some after ∧ after.position = 2 := by
    simpa using positionAt
  have rowsEq : ∀ reader, Sample.twoRecordsOfCountries[1]? = some reader →
      reader.column.recordRows? 0 = some (reader.position, 1) := by decide +kernel
  have one := always Sample.documentType Sample.namesOnly Sample.nameMachine _ afters record
    Sample.documentType_isAccepted Sample.namesOnly_isOf Sample.ofProjection_namesOnly
    Sample.isFilled_twoRecordsOfCountries Sample.starts_twoRecordsOfCountries assembled 1 0 1 _ after
    rfl stands (rowsEq _ rfl)
  omega

end NestedColumns
