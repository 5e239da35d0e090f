/-
Moves between positions in reading order.

Readers know leaves by their position in reading order, and the machine by their number. In terms of
positions a move goes one leaf on, or back to a leaf that shares the level of the next row, or ends
the record behind the last leaf (`IsOrder.exists_moves`). No move goes back over a leaf whose
neighbours share no repeated group, since all leaves that are left behind share the level
(`IsOrder.commonRepetition_le`).

A machine returns whole (`ReturnsWhole`) if the leaf that reading goes back to shares no more with the
leaf behind it than with the one it is reached from, so that going back repeats all that these two
share. With groups repeated inside repeated groups some machines do not; without them, every machine
does (`IsOrder.returnsWhole`).
-/

import NestedColumns.Proofs.Machine.Targets

namespace NestedColumns.Machine

/-- The moves after a row of the leaf at a position when its next row has the given level. -/
inductive Moves (leaves : List Node) (index : Nat) (leaf : Node) (level : Level) :
    Option Nat → Prop
  | onward {next : Node} (there : leaves[index + 1]? = some next)
      (shared : level ≤ leaf.commonRepetition next) : Moves leaves index leaf level (some (index + 1))
  | back {target : Nat} {first : Node} (earlier : target ≤ index)
      (there : leaves[target]? = some first) (positive : 0 < level)
      (shared : level ≤ first.commonRepetition leaf) : Moves leaves index leaf level (some target)
  | ends (last : leaves.length = index + 1) (starts : level = 0) : Moves leaves index leaf level none

section Moves

variable {leaves : List Node} {index : Nat} {leaf : Node} {level : Level} {target : Option Nat}

/-- No move leaves out a leaf; the end of the record counts as the position behind the last leaf. -/
theorem Moves.getD_le (moves : Moves leaves index leaf level target) :
    target.getD (index + 1) ≤ index + 1 := by
  cases moves with
  | onward _ _ => exact Nat.le_refl _
  | back earlier _ _ _ => exact Nat.le_succ_of_le earlier
  | ends _ _ => exact Nat.le_refl _

/-- Reading goes back only for a level that the leaves share. -/
theorem Moves.exists_of_le (moves : Moves leaves index leaf level target)
    (back : target.getD (index + 1) ≤ index) :
    ∃ first, leaves[target.getD (index + 1)]? = some first ∧ 0 < level ∧
      level ≤ first.commonRepetition leaf := by
  cases moves with
  | onward _ _ => exact absurd back (Nat.not_succ_le_self _)
  | back _ there positive shared => exact ⟨_, there, positive, shared⟩
  | ends _ _ => exact absurd back (Nat.not_succ_le_self _)

end Moves

namespace IsOrder

variable {leaves : List Node} {index : Nat} {leaf : Node} {level : Level}

/-- **The machine moves** one leaf on, back within what shares the level, or ends the record. -/
theorem exists_moves (order : IsOrder leaves) (found : leaves[index]? = some leaf)
    (within : level ≤ leaf.maxRepetition) :
    ∃ target, Moves leaves index leaf level target ∧
      ((ofLeaves leaves).next? leaf.id level).bind (ofLeaves leaves).position? = target := by
  obtain ⟨before, after, parts, here⟩ := exists_parts_of_getElem? found
  have asked : (ofLeaves leaves).next? leaf.id level = targetAt before leaf after.head? level := by
    rw [parts, next?_eq (parts ▸ order.distinct), Nat.min_eq_left within]
  rw [asked]
  by_cases low : level ≤ barrier leaf after.head?
  · rw [targetAt, if_pos low]
    cases after with
    | nil =>
      refine ⟨none, .ends ?_ (Nat.le_zero.mp low), rfl⟩
      rw [parts, ← here, List.length_append, List.length_singleton]
    | cons next after =>
      have there : leaves[index + 1]? = some next := by
        rw [parts, ← here]
        simp
      exact ⟨some (index + 1), .onward there low, position?_ofLeaves order.distinct there⟩
  · have least : (before ++ [leaf]).Triplewise Node.LeastLevel :=
      triplewise_sublist (by rw [parts]; simp) order.least
    have sharing : ∀ x ∈ before, x.commonRepetition leaf ≤ leaf.maxRepetition :=
      fun x member => order.within x (by rw [parts]; simp [member]) leaf (by rw [parts]; simp)
    obtain ⟨earlier, first, later, split, target, _, shares⟩ :=
      exists_first_of_barrier_lt least sharing (Nat.lt_of_not_le low) within
    have there : leaves[earlier.length]? = some first := by
      rw [parts, ← List.singleton_append, ← List.append_assoc, split]
      simp
    have lengths := congrArg List.length split
    simp only [List.length_append, List.length_cons, List.length_nil] at lengths
    have positive : 0 < level := Nat.zero_lt_of_lt (Nat.lt_of_not_le low)
    rw [target]
    exact ⟨some earlier.length, .back (by omega) there positive shares,
      position?_ofLeaves order.distinct there⟩

/-! ### Sharing over a distance -/

section Distance

variable {i j k l : Nat} {x y z w : Node}

theorem commonRepetition_eq_min (order : IsOrder leaves) (atX : leaves[i]? = some x)
    (atY : leaves[j]? = some y) (atZ : leaves[k]? = some z) (first : i < j) (second : j < k) :
    x.commonRepetition z = min (x.commonRepetition y) (y.commonRepetition z) := by
  obtain ⟨_, rfl⟩ := List.getElem?_eq_some_iff.mp atX
  obtain ⟨_, rfl⟩ := List.getElem?_eq_some_iff.mp atY
  obtain ⟨inside, rfl⟩ := List.getElem?_eq_some_iff.mp atZ
  exact List.triplewise_iff_getElem.mp order.least i j k first second inside

/-- Leaves further apart share no more than those between them. -/
theorem commonRepetition_le (order : IsOrder leaves) (atX : leaves[i]? = some x)
    (atY : leaves[j]? = some y) (atZ : leaves[k]? = some z) (atW : leaves[l]? = some w)
    (left : i ≤ j) (middle : j < k) (right : k ≤ l) :
    x.commonRepetition w ≤ y.commonRepetition z := by
  have nearer : x.commonRepetition w ≤ y.commonRepetition w := by
    rcases Nat.lt_or_eq_of_le left with less | rfl
    · rw [order.commonRepetition_eq_min atX atY atW less (Nat.lt_of_lt_of_le middle right)]
      exact Nat.min_le_right _ _
    · rw [atX] at atY
      rw [Option.some.inj atY]
  have nearest : y.commonRepetition w ≤ y.commonRepetition z := by
    rcases Nat.lt_or_eq_of_le right with less | rfl
    · rw [order.commonRepetition_eq_min atY atZ atW middle less]
      exact Nat.min_le_left _ _
    · rw [atZ] at atW
      rw [Option.some.inj atW]
  exact Nat.le_trans nearer nearest

end Distance

end IsOrder

/-! ### Going back -/

theorem getElem?_fields_of_position? {machine : Machine} {field : FieldId} {i : Nat}
    (found : machine.position? field = some i) : machine.fields[i]? = some field := by
  obtain ⟨inside, here, _⟩ := List.idxOf?_eq_some_iff.mp found
  rw [List.getElem?_eq_getElem inside, here]

theorem getElem?_fields_ofLeaves {leaves : List Node} {i : Nat} {field : FieldId} :
    (ofLeaves leaves).fields[i]? = some field ↔
      ∃ leaf, leaves[i]? = some leaf ∧ leaf.id = field := by
  rw [fields_ofLeaves, List.getElem?_map, Option.map_eq_some_iff]

/-- What is read next stands in the table. -/
theorem exists_mem_transitions_of_next? {machine : Machine} {field target : FieldId} {level : Level}
    (goes : machine.next? field level = some target) :
    ∃ level, (field, level, some target) ∈ machine.transitions := by
  unfold next? at goes
  obtain ⟨state, found, goes⟩ := Option.bind_eq_some_iff.mp goes
  obtain ⟨entry, atLevel, rfl⟩ := Option.bind_eq_some_iff.mp goes
  have named : state.field = field := by
    simpa using List.find?_some found
  refine ⟨min level (state.targets.length - 1),
    List.mem_flatMap.mpr ⟨state, List.mem_of_find?_eq_some found, ?_⟩⟩
  rw [named]
  exact List.mem_map.mpr ⟨_, List.mk_mem_zipIdx_iff_getElem?.mpr atLevel, rfl⟩

/-- The table has one entry for a leaf and a level. -/
theorem transition?_of_mem_transitions {machine : Machine} (distinct : machine.fields.Nodup)
    {field : FieldId} {level : Level} {target : Option FieldId}
    (entry : (field, level, target) ∈ machine.transitions) :
    machine.transition? field level = some target := by
  obtain ⟨state, member, entry⟩ := List.mem_flatMap.mp entry
  obtain ⟨⟨_, _⟩, listed, same⟩ := List.mem_map.mp entry
  cases same
  have found : machine.state? state.field = some state := by
    cases found : machine.state? state.field with
    | none =>
      have none := List.find?_eq_none.mp found state member
      simp at none
    | some other =>
      have same : other.field = state.field := by
        simpa using List.find?_some found
      rw [List.inj_on_of_nodup_map distinct (List.mem_of_find?_eq_some found) member same]
  unfold transition?
  rw [found]
  exact List.mk_mem_zipIdx_iff_getElem?.mp listed

theorem next?_of_transition? {machine : Machine} {field : FieldId} {level : Level}
    {target : Option FieldId} (entry : machine.transition? field level = some target) :
    machine.next? field level = target := by
  obtain ⟨state, found, atLevel⟩ := Option.bind_eq_some_iff.mp entry
  obtain ⟨inside, _⟩ := List.getElem?_eq_some_iff.mp atLevel
  unfold next?
  rw [found, Option.bind_eq_bind, Option.bind_some, Nat.min_eq_left (Nat.le_sub_one_of_lt inside),
    atLevel]
  rfl

/-- **A machine that returns whole** goes back to an earlier field only if that field shares as much
with the one where reading comes from as with the one behind it. -/
def ReturnsWhole (schema : Schema) (machine : Machine) : Prop :=
  ∀ entry ∈ machine.transitions, ∀ target ∈ entry.2.2, ∀ i ∈ machine.position? entry.1,
    ∀ j ∈ machine.position? target, j < i → ∀ next ∈ machine.fields[j + 1]?,
      schema.commonRepetition? target next = schema.commonRepetition? target entry.1

theorem ReturnsWhole.commonRepetition_eq {schema : Schema} {leaves : List Node}
    (whole : (ofLeaves leaves).ReturnsWhole schema) (accepted : schema.IsAccepted)
    (members : ∀ leaf ∈ leaves, leaf ∈ schema.nodes) (distinct : (leaves.map (·.id)).Nodup)
    {i j : Nat} {source first next : Node} {level : Level}
    (atI : leaves[i]? = some source) (atJ : leaves[j]? = some first)
    (atNext : leaves[j + 1]? = some next) (less : j < i)
    (goes : ((ofLeaves leaves).next? source.id level).bind (ofLeaves leaves).position? = some j) :
    first.commonRepetition next = first.commonRepetition source := by
  obtain ⟨target, goes, position⟩ := Option.bind_eq_some_iff.mp goes
  obtain ⟨level, entry⟩ := exists_mem_transitions_of_next? goes
  obtain ⟨leaf, found, rfl⟩ := getElem?_fields_ofLeaves.mp (getElem?_fields_of_position? position)
  obtain rfl := Option.some.inj (atJ.symm.trans found)
  have shares := whole _ entry _ rfl i (position?_ofLeaves distinct atI) j position less next.id
    (getElem?_fields_ofLeaves.mpr ⟨next, atNext, rfl⟩)
  have member : ∀ {k : Nat} {leaf : Node}, leaves[k]? = some leaf → leaf ∈ schema.nodes :=
    fun found => members _ (List.mem_of_getElem? found)
  rw [accepted.commonRepetition?_id (member atJ) (member atNext),
    accepted.commonRepetition?_id (member atJ) (member atI)] at shares
  exact Option.some.inj shares

/-- Without repeated fields inside repeated groups, a machine returns whole. -/
theorem IsOrder.returnsWhole {schema : Schema} (accepted : schema.IsAccepted) {leaves : List Node}
    (order : IsOrder leaves) (members : ∀ leaf ∈ leaves, leaf ∈ schema.nodes)
    (flat : ∀ leaf ∈ leaves, leaf.maxRepetition ≤ 1) : (ofLeaves leaves).ReturnsWhole schema := by
  rintro ⟨field, level, _⟩ entry target rfl i atField j atTarget back next behind
  have distinct := order.distinct
  rw [← fields_ofLeaves] at distinct
  have entry := transition?_of_mem_transitions distinct entry
  have goes := next?_of_transition? entry
  obtain ⟨source, atI, rfl⟩ := getElem?_fields_ofLeaves.mp (getElem?_fields_of_position? atField)
  obtain ⟨first, atJ, rfl⟩ := getElem?_fields_ofLeaves.mp (getElem?_fields_of_position? atTarget)
  obtain ⟨other, atNext, rfl⟩ := getElem?_fields_ofLeaves.mp behind
  have within : level ≤ source.maxRepetition := by
    obtain ⟨before, after, parts, _⟩ := exists_parts_of_getElem? atI
    by_contra beyond
    rw [parts, transition?_eq (parts ▸ order.distinct), if_neg beyond] at entry
    cases entry
  obtain ⟨_, moves, goes'⟩ := order.exists_moves atI within
  rw [goes, Option.bind_some, atTarget] at goes'
  subst goes'
  -- both pairs share the one level of repetition that there is
  obtain ⟨_, there, positive, shared⟩ := moves.exists_of_le (Nat.le_of_lt back)
  obtain rfl := Option.some.inj (atJ.symm.trans there)
  have nearer :=
    order.commonRepetition_le atJ atJ atNext atI (Nat.le_refl j) (Nat.lt_succ_self j) back
  have most := Nat.le_trans (first.commonRepetition_le_maxRepetition other)
    (flat first (List.mem_of_getElem? atJ))
  have member : ∀ {k : Nat} {leaf : Node}, leaves[k]? = some leaf → leaf ∈ schema.nodes :=
    fun found => members _ (List.mem_of_getElem? found)
  rw [accepted.commonRepetition?_id (member atJ) (member atNext),
    accepted.commonRepetition?_id (member atJ) (member atI)]
  have further := Nat.le_trans (Nat.le_trans most positive) shared
  rw [Nat.le_antisymm further nearer]

end NestedColumns.Machine
