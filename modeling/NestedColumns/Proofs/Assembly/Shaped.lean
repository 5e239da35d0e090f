/-
What an assembly builds.

Columns may contradict each other, and readers may stand anywhere. If assembly gives a record all the
same, then the record has the shape of the schema (`fills_of_assemble`), provided that the machine
goes back only to leaves that share as much with where reading comes from as with the leaf behind
them (`Machine.ReturnsWhole`).

The invariant is `Growing`: the record is one in the making (`Unfinished`), with the path of the leaf
that was read last and the open groups. What comes next is added where the path of the next leaf
turns off, for two reasons. On the way forward the groups that stay open are those of the common
ancestor. On the way back they are those above the owner of the level of the row, which is compared
with no other column: it is known only that the leaf went on to the leaf behind it when it was read
before, so the level is one that these two share. A machine that does not return whole may therefore
put a row into an instance that is complete already (`not_fills_of_assemble`).
-/

import NestedColumns.Proofs.Assembly.Steps
import NestedColumns.Proofs.Assembly.Unfinished

namespace NestedColumns

namespace Assembly

/-- **What is known of the record** when the leaf at `index` is read next. -/
structure Growing (covered : FieldId → Bool) (fields : List Field) (leaves : List Node)
    (index : Nat) (progress : Progress) : Prop where
  fresh : progress.previous = none → progress.record = .empty
  read : ∀ before last, progress.previous = some (before, last) → leaves[before]? = some last
  unfinished : ∀ before last, progress.previous = some (before, last) →
    Unfinished covered fields last.path progress.chain progress.record
  /-- A leaf that was passed goes on, as long as it is not read again, with a level that it shares
  with the leaf behind it. -/
  passed : ∀ i leaf next reader, i < index → leaves[i]? = some leaf → leaves[i + 1]? = some next →
    progress.readers[i]? = some reader → reader.nextRepetition ≤ leaf.commonRepetition next
  /-- On the way back, the row that is read next has a level that both leaves share. -/
  back : ∀ before last leaf reader, progress.previous = some (before, last) → index ≤ before →
    leaves[index]? = some leaf → progress.readers[index]? = some reader →
    reader.nextRepetition ≤ leaf.commonRepetition last

theorem Growing.start (covered : FieldId → Bool) (fields : List Field) (leaves : List Node)
    (readers : List Reader) : Growing covered fields leaves 0 { readers } where
  fresh := fun _ => rfl
  read := fun _ _ comes => nomatch comes
  unfinished := fun _ _ comes => nomatch comes
  passed := fun _ _ _ _ less => absurd less (Nat.not_lt_zero _)
  back := fun _ _ _ _ comes => nomatch comes

/-- Leaves of a schema, all of whose groups are covered. -/
structure Covers (schema : Schema) (covered : FieldId → Bool) (leaves : List Node) : Prop where
  accepted : schema.IsAccepted
  reading : IsReading schema leaves
  among : ∀ leaf ∈ leaves, leaf ∈ schema.leaves
  covered : ∀ leaf ∈ leaves, ∀ label ∈ leaf.path, covered label.id = true

theorem covers_selected {schema : Schema} {projection : Projection} (accepted : schema.IsAccepted)
    (own : projection.IsOf schema) :
    Covers schema (projection.covers schema) (projection.selected schema) where
  accepted := accepted
  reading := isReading_selected accepted projection
  among := fun _ member => (projection.selected_sublist schema).subset member
  covered := fun leaf member _ onPath => (own.covers_eq_true accepted).mpr
    (.inr ⟨leaf, member, List.mem_map_of_mem onPath⟩)

section Step

variable {schema : Schema} {covered : FieldId → Bool} {leaves : List Node} {index : Nat}
  {progress later : Progress} {target : Option Nat}

namespace Covers

variable {leaf last : Node} {i j : Nat}

theorem mem_nodes (covers : Covers schema covered leaves) (member : leaf ∈ leaves) :
    leaf ∈ schema.nodes :=
  List.mem_of_mem_filter (covers.among leaf member)

theorem exists_type (covers : Covers schema covered leaves) (member : leaf ∈ leaves) :
    ∃ type, leaf.type? = some type :=
  leaf.exists_type (List.mem_filter.mp (covers.among leaf member)).2

theorem reaches (covers : Covers schema covered leaves) (member : leaf ∈ leaves) {type : ScalarType}
    (typed : leaf.type? = some type) : Field.Reaches covered type schema.fields leaf.path := by
  have among := covers.among leaf member
  rw [Schema.leaves_eq] at among
  obtain ⟨rest, ends, reaches⟩ :=
    Field.exists_reaches_of_mem_leavesAll among typed (covers.covered leaf member)
  rw [ends]
  exact reaches

/-- **On the way forward** the path of the next leaf turns off below the common ancestor. -/
theorem turns_onward (covers : Covers schema covered leaves) (atI : leaves[i]? = some last)
    (atJ : leaves[j]? = some leaf) (less : i < j) :
    Field.Turns schema.fields last.path leaf.path (last.commonAncestorPath leaf).length := by
  have member := List.mem_of_getElem? atI
  have member' := List.mem_of_getElem? atJ
  have apart : last.id ≠ leaf.id := by
    intro same
    have one := index_eq_of_nodup_map covers.reading.distinct atI atJ same
    exact absurd less (one ▸ Nat.lt_irrefl _)
  have columns := (covers.reading.column_lt_iff atI atJ).mpr less
  have among := covers.among last member
  have among' := covers.among leaf member'
  rw [Schema.leaves_eq] at among among'
  cases covers.accepted.wellFormed with
  | group _ _ named numbered each =>
    obtain ⟨rest, rest', depth, ends, ends', common, turns⟩ :=
      Field.exists_turns_of_mem_leavesAll each numbered among among' columns apart
    rw [ends, ends', common, List.length_nil, Nat.zero_add]
    exact turns

/-- **On the way back** the path turns to the owner of a level that both leaves share. -/
theorem turns_back (covers : Covers schema covered leaves) (member : leaf ∈ leaves)
    (member' : last ∈ leaves) {level : Level} {owner : Nat}
    (owns : Path.ownerIndex level leaf.path = some owner)
    (shared : level ≤ leaf.commonRepetition last) :
    Field.Turns schema.fields last.path leaf.path owner := by
  obtain ⟨type, typed⟩ := covers.exists_type member
  obtain ⟨label, found, repeats, _⟩ := Path.ownerIndex_eq_some_iff.mp owns
  have inside := (Path.le_repetitionLevel_shared_iff owns).mp shared
  have common := Path.take_eq_of_lt_shared
    (covers.accepted.label_eq (covers.mem_nodes member) (covers.mem_nodes member')) inside
  exact (covers.reaches member typed).turns_again found repeats common.symm

end Covers

/-- A row that is read can be added where reading goes on. -/
theorem Growing.resumes (growing : Growing covered schema.fields leaves index progress)
    (covers : Covers schema covered leaves) (standing : AllOver leaves progress.readers)
    (reads : Reads leaves index progress later target) {type : ScalarType}
    (typed : reads.leaf.type? = some type) {kept : Nat}
    (keeps : keptGroups progress index reads.leaf reads.row reads.reader.position = .ok kept) :
    Resumes covered type schema.fields reads.leaf.path (progress.chain.take kept) progress.record := by
  have member := List.mem_of_getElem? reads.here
  have reaches := covers.reaches member typed
  have wellFormed := covers.accepted.wellFormed
  rcases keptGroups_eq_ok keeps with ⟨none, rfl⟩ | ⟨before, last, comes, way⟩
  · rw [growing.fresh none]
    exact .here reaches (vacant_empty _ _ _)
  have found := growing.read before last comes
  have unfinished := growing.unfinished before last comes
  rcases way with ⟨onward, rfl⟩ | ⟨back, owns⟩
  · rw [List.take_eq_take_min, Nat.min_assoc, Nat.min_self, ← List.take_eq_take_min]
    exact unfinished.turn wellFormed (covers.turns_onward found reads.here onward) reaches
  · obtain ⟨_, levelEq⟩ := (standing.each reads.here reads.found).read reads.read
    have shared := growing.back before last _ _ comes back reads.here reads.found
    rw [← levelEq] at shared
    exact unfinished.turn wellFormed
      (covers.turns_back member (List.mem_of_getElem? found) owns shared) reaches

/-- **After a row the record is unfinished again.** -/
theorem Growing.unfinished_later (growing : Growing covered schema.fields leaves index progress)
    (covers : Covers schema covered leaves) (standing : AllOver leaves progress.readers)
    (reads : Reads leaves index progress later target) :
    Unfinished covered schema.fields reads.leaf.path later.chain later.record := by
  have member := List.mem_of_getElem? reads.here
  obtain ⟨type, typed⟩ := covers.exists_type member
  obtain ⟨kept, keeps, settled⟩ := reads.exists_kept
  obtain ⟨fits, _⟩ := (standing.each reads.here reads.found).read reads.read
  have isRow : IsRowAt type reads.leaf.path (reads.leaf, reads.row) := by
    refine ⟨Schema.getLast?_path_of_mem_leaves (covers.among _ member), fun value content => ?_⟩
    rcases fits.value with ⟨absent, _⟩ | ⟨scalar, present, own, _⟩
    · rw [absent] at content
      cases content
    · rw [present] at content
      obtain rfl := Option.some.inj content
      rw [typed] at own
      show ValueKind.scalar scalar.type = _
      rw [Option.some.inj own]
  have resumes := growing.resumes covers standing reads typed keeps
  exact resumes.settle covers.accepted.wellFormed isRow settled

/-- **One step.** -/
theorem Growing.step {following : Nat}
    (growing : Growing covered schema.fields leaves index progress)
    (covers : Covers schema covered leaves) (whole : (Machine.ofLeaves leaves).ReturnsWhole schema)
    (standing : AllOver leaves progress.readers)
    (reads : Reads leaves index progress later (some following)) :
    Growing covered schema.fields leaves following later := by
  have near := reads.moves.getD_le
  rw [Option.getD_some] at near
  refine
    { fresh := fun none => by rw [reads.previous_eq] at none; cases none
      read := fun before last comes => ?_
      unfinished := fun before last comes => ?_
      passed := fun i leaf next reader less atLeaf atNext stands => ?_
      back := fun before last leaf reader comes back atLeaf stands => ?_ }
  · rw [reads.previous_eq] at comes
    cases comes
    exact reads.here
  · rw [reads.previous_eq] at comes
    cases comes
    exact growing.unfinished_later covers standing reads
  · by_cases here : index = i
    · -- the leaf that was read now is passed only by going on to the leaf behind it
      subst here
      obtain rfl := Option.some.inj (reads.here.symm.trans atLeaf)
      obtain rfl := Option.some.inj (reads.getElem?_self.symm.trans stands)
      cases reads.moves with
      | onward there shared =>
        obtain rfl := Option.some.inj (there.symm.trans atNext)
        exact shared
      | back earlier _ _ _ => omega
    · rw [reads.getElem?_of_ne here] at stands
      exact growing.passed i leaf next reader (by omega) atLeaf atNext stands
  · rw [reads.previous_eq] at comes
    cases comes
    rcases Nat.lt_or_eq_of_le back with earlier | rfl
    · -- the leaf was passed before, and what it shared then with the leaf behind it is shared still
      obtain ⟨inside, _⟩ := List.getElem?_eq_some_iff.mp reads.here
      have atNext := List.getElem?_eq_getElem (by omega : following + 1 < leaves.length)
      have same := whole.commonRepetition_eq covers.accepted (fun _ => covers.mem_nodes)
        covers.reading.distinct reads.here atLeaf atNext earlier reads.goes
      rw [reads.getElem?_of_ne (Nat.ne_of_gt earlier)] at stands
      rw [← same]
      exact growing.passed following leaf _ reader earlier atLeaf atNext stands
    · obtain rfl := Option.some.inj (reads.getElem?_self.symm.trans stands)
      obtain ⟨first, there, _, shared⟩ := reads.moves.exists_of_le (Nat.le_refl _)
      obtain rfl := Option.some.inj (there.symm.trans atLeaf)
      exact shared

end Step

end Assembly

namespace Sample

/-- The selection of all leaves below languages. -/
def languagesOnly : Projection :=
  ⟨[7, 8]⟩

theorem languagesOnly_isOf : languagesOnly.IsOf documentType := by
  have made : Projection.ofIds documentType [7, 8] = .ok languagesOnly :=
    (Projection.ofIds_eq_ok documentType_isAccepted).mpr (by decide +kernel)
  exact .ofIds made

def languageMachine : Machine :=
  Machine.ofLeaves [code, country]

theorem ofProjection_languagesOnly :
    Machine.ofProjection documentType languagesOnly = .ok languageMachine := rfl

theorem languageMachine_returnsWhole : languageMachine.ReturnsWhole documentType := by
  unfold Machine.ReturnsWhole
  decide +kernel

/-- The codes speak of two languages of one name, the countries of a language of each of two names. -/
def disagreeingLanguages : List Reader :=
  [ reader code [textRow "a" 0 2, textRow "b" 2 2],
    reader country [nullRow 0 2, nullRow 1 2] ]

theorem isFilled_disagreeingLanguages :
    ∀ reader ∈ disagreeingLanguages, reader.column.IsFilled documentType reader.field := by
  unfold disagreeingLanguages
  rw [List.forall_mem_cons, List.forall_mem_singleton]
  exact ⟨isFilled_reader rfl _, isFilled_reader rfl _⟩

/-- The links speak of two names, too. -/
def disagreeingNames : List Reader :=
  disagreeingLanguages ++ [reader url [textRow "x" 0 2, textRow "y" 1 2]]

theorem isFilled_disagreeingNames :
    ∀ reader ∈ disagreeingNames, reader.column.IsFilled documentType reader.field := by
  unfold disagreeingNames
  rw [List.forall_mem_append, List.forall_mem_singleton]
  exact ⟨isFilled_disagreeingLanguages, isFilled_reader rfl _⟩

/-- One name is assembled, with both links. -/
theorem exists_assemble_disagreeingNames :
    ∃ record afters name, documentType.assemble nameMachine disagreeingNames = (.ok record, afters) ∧
      .record name ∈ record.getAll "Name" ∧ (name.getAll "Url").length = 2 := by
  have links : (documentType.assemble nameMachine disagreeingNames).1.toOption.map
      (fun record => ((record.getAll "Name").filterMap (·.asRecord?)).map
        fun name => (name.getAll "Url").length) = some [2] := by decide +kernel
  obtain ⟨record, afters, assembled⟩ : ∃ record afters,
      documentType.assemble nameMachine disagreeingNames = (.ok record, afters) :=
    exists_assemble (by decide +kernel)
  rw [assembled] at links
  have counts : ((record.getAll "Name").filterMap (·.asRecord?)).map
      (fun name => (name.getAll "Url").length) = [2] := Option.some.inj links
  have count := counts ▸ List.mem_singleton_self 2
  obtain ⟨name, among, two⟩ := List.mem_map.mp count
  obtain ⟨value, among, same⟩ := List.mem_filterMap.mp among
  cases value with
  | scalar content => cases content <;> cases same
  | record inner =>
    cases same
    exact ⟨record, afters, name, assembled, among, two⟩

end Sample

open Assembly

/-- **A record that is assembled has the shape of the schema**, whatever rows the columns were filled
with and wherever the readers stood, if the machine returns whole. -/
theorem Schema.fills_of_assemble {schema : Schema} (accepted : schema.IsAccepted)
    {projection : Projection} (own : projection.IsOf schema) {machine : Machine}
    (built : Machine.ofProjection schema projection = .ok machine)
    (whole : machine.ReturnsWhole schema) {readers afters : List Reader}
    (filled : ∀ reader ∈ readers, reader.column.IsFilled schema reader.field) {record : Record}
    (assembled : schema.assemble machine readers = (.ok record, afters)) :
    record.Fills (projection.covers schema) schema.fields := by
  have covers := covers_selected accepted own
  have order := Machine.isOrder_of_sublist accepted (projection.selected_sublist schema)
  obtain ⟨rfl, standing⟩ := allOver_of_assemble accepted own built filled assembled
  have steps : ∀ {index following progress later}, AllOver _ progress.readers →
      Growing (projection.covers schema) schema.fields _ index progress →
      Reads _ index progress later (some following) →
      Growing (projection.covers schema) schema.fields _ following later :=
    fun standing growing reads => growing.step covers whole standing reads
  obtain ⟨last⟩ := standing.completes covers.reading order (own.selected_ne_nil accepted)
    (.start _ _ _ readers) steps assembled
  rw [← last.record_eq]
  exact (last.keeps.unfinished_later covers last.standing last.reads).fills accepted.wellFormed

theorem Schema.fills_disagreeingLanguages :
    Sample.documentType.IsAccepted ∧ Sample.languagesOnly.IsOf Sample.documentType ∧
      Machine.ofProjection Sample.documentType Sample.languagesOnly = .ok Sample.languageMachine ∧
      Sample.languageMachine.ReturnsWhole Sample.documentType ∧
      (∀ reader ∈ Sample.disagreeingLanguages,
        reader.column.IsFilled Sample.documentType reader.field) ∧
      ∃ record afters,
        Sample.documentType.assemble Sample.languageMachine Sample.disagreeingLanguages =
          (.ok record, afters) ∧
        record.Fills (Sample.languagesOnly.covers Sample.documentType) Sample.documentType.fields := by
  obtain ⟨record, afters, assembled⟩ : ∃ record afters,
      Sample.documentType.assemble Sample.languageMachine Sample.disagreeingLanguages =
        (.ok record, afters) := Sample.exists_assemble (by decide +kernel)
  refine ⟨Sample.documentType_isAccepted, Sample.languagesOnly_isOf,
    Sample.ofProjection_languagesOnly, Sample.languageMachine_returnsWhole,
    Sample.isFilled_disagreeingLanguages, record, afters, assembled, ?_⟩
  exact fills_of_assemble Sample.documentType_isAccepted Sample.languagesOnly_isOf
    Sample.ofProjection_languagesOnly Sample.languageMachine_returnsWhole
    Sample.isFilled_disagreeingLanguages assembled

/-- A machine that does not return whole may read a field into an instance that is complete: here a
name has two links. -/
theorem Schema.not_fills_of_assemble :
    ¬ ∀ (schema : Schema) (projection : Projection) (machine : Machine)
        (readers afters : List Reader) (record : Record),
        schema.IsAccepted → projection.IsOf schema →
        Machine.ofProjection schema projection = .ok machine →
        (∀ reader ∈ readers, reader.column.IsFilled schema reader.field) →
        schema.assemble machine readers = (.ok record, afters) →
        record.Fills (projection.covers schema) schema.fields := by
  intro always
  obtain ⟨record, afters, name, assembled, among, two⟩ := Sample.exists_assemble_disagreeingNames
  have fills := always Sample.documentType Sample.namesOnly Sample.nameMachine _ afters record
    Sample.documentType_isAccepted Sample.namesOnly_isOf Sample.ofProjection_namesOnly
    Sample.isFilled_disagreeingNames assembled
  obtain ⟨children, names, links⟩ : ∃ children,
      Sample.documentType.fields[2]? = some (.group ⟨5, "Name", .repeated⟩ children) ∧
        children[1]? = some (.leaf ⟨9, "Url", .optional⟩ .string) := ⟨_, rfl, rfl⟩
  have shapes := (fills.each _ (List.mem_of_getElem? names)).2 _ among
  have inner := Record.fills_iff.mp shapes
  rcases (inner.each _ (List.mem_of_getElem? links)).1 with one | repeats
  · have one : (name.getAll "Url").length ≤ 1 := one
    omega
  · cases repeats

end NestedColumns
