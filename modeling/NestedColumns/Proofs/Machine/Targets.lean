/-
Where the machine goes.

For a list of leaves the machine keeps one state per leaf. What follows a row of a leaf is said by
`Machine.targetAt`, and looked up by `transition?_eq` and `next?_eq`.

* `restart_eq_of_first` — above the barrier reading goes back to the first leaf that shares the
  level: among the leaves before a given one the shared level never falls, so the least level that
  leads back at all leads back to that leaf.
* `exists_first_of_barrier_lt` states this for leaves that obey the least-level law, whichever of
  the leaves of a schema they are.
-/

import NestedColumns.Machine.Basic
import NestedColumns.Proofs.Projection.Selection
import NestedColumns.Proofs.Schema.Owner

namespace NestedColumns.Machine

/-- A list falls into what comes before one of its members, the member, and what comes after. -/
theorem exists_parts_of_getElem? {α : Type} {list : List α} {i : Nat} {a : α}
    (found : list[i]? = some a) : ∃ before after, list = before ++ a :: after ∧ before.length = i := by
  obtain ⟨inside, rfl⟩ := List.getElem?_eq_some_iff.mp found
  refine ⟨list.take i, list.drop (i + 1), ?_, List.length_take_of_le (Nat.le_of_lt inside)⟩
  rw [List.getElem_cons_drop, List.take_append_drop]

theorem idxOf?_map_id {nodes : List Node} (distinct : (nodes.map (·.id)).Nodup) {i : Nat}
    {node : Node} (found : nodes[i]? = some node) :
    (nodes.map (·.id)).idxOf? node.id = some i := by
  obtain ⟨inside, rfl⟩ := List.getElem?_eq_some_iff.mp found
  have inside' : i < (nodes.map (·.id)).length := by simpa using inside
  rw [List.idxOf?_eq_some_iff]
  refine ⟨inside', List.getElem_map _, fun j less same => ?_⟩
  have same : (nodes.map (·.id))[j] = (nodes.map (·.id))[i] := by
    rw [same, List.getElem_map]
  exact Nat.ne_of_lt less ((List.Nodup.getElem_inj_iff distinct).mp same)

/-! ### Looking up a state -/

/-- The machine that reads the given leaves. -/
def ofLeaves (nodes : List Node) : Machine :=
  ⟨statesAfter [] nodes⟩

/-- The leaf read after a row of `node` when its next row has the given level. -/
def targetAt (before : List Node) (node : Node) (next : Option Node) (level : Level) :
    Option FieldId :=
  if level ≤ barrier node next then next.map (·.id)
  else some (restart before node (barrier node next) level)

theorem map_field_statesAfter {nodes before : List Node} :
    (statesAfter before nodes).map (·.field) = nodes.map (·.id) := by
  induction nodes generalizing before with
  | nil => rfl
  | cons node nodes ih =>
    rw [statesAfter, List.map_cons, ih]
    rfl

theorem fields_ofLeaves (nodes : List Node) : (ofLeaves nodes).fields = nodes.map (·.id) :=
  map_field_statesAfter

theorem position?_ofLeaves {nodes : List Node} (distinct : (nodes.map (·.id)).Nodup) {i : Nat}
    {node : Node} (found : nodes[i]? = some node) :
    (ofLeaves nodes).position? node.id = some i := by
  unfold position?
  rw [fields_ofLeaves]
  exact idxOf?_map_id distinct found

theorem find?_statesAfter {node : Node} {after earlier before : List Node}
    (distinct : ((earlier ++ node :: after).map (·.id)).Nodup) :
    (statesAfter before (earlier ++ node :: after)).find? (·.field == node.id) =
      some (stateOf (before ++ earlier) node after.head?) := by
  induction earlier generalizing before with
  | nil =>
    rw [List.nil_append, statesAfter, List.find?_cons_of_pos (by exact beq_self_eq_true _),
      List.append_nil]
  | cons first earlier ih =>
    rw [List.cons_append, List.map_cons, List.nodup_cons] at distinct
    have differ : ¬ (first.id == node.id) = true := by
      intro same
      refine distinct.1 (List.mem_map.mpr ⟨node, ?_, (beq_iff_eq.mp same).symm⟩)
      exact List.mem_append_right _ List.mem_cons_self
    rw [List.cons_append, statesAfter, List.find?_cons_of_neg (by exact differ),
      ih distinct.2, List.append_assoc]
    rfl

section States

variable {before after : List Node} {node : Node}

/-- The state of a leaf of the machine. -/
theorem state?_eq (distinct : ((before ++ node :: after).map (·.id)).Nodup) :
    (ofLeaves (before ++ node :: after)).state? node.id =
      some (stateOf before node after.head?) :=
  find?_statesAfter distinct

theorem targets_stateOf (next : Option Node) {level : Level} :
    (stateOf before node next).targets[level]? =
      if level ≤ node.maxRepetition then some (targetAt before node next level) else none := by
  unfold stateOf
  rw [List.getElem?_map]
  by_cases within : level ≤ node.maxRepetition
  · rw [if_pos within, List.getElem?_range (Nat.lt_succ_of_le within)]
    rfl
  · rw [if_neg within, List.getElem?_eq_none (by rw [List.length_range]; lia)]
    rfl

/-- **The table of the machine**: an entry for every level up to the greatest of a leaf. -/
theorem transition?_eq (distinct : ((before ++ node :: after).map (·.id)).Nodup) (level : Level) :
    (ofLeaves (before ++ node :: after)).transition? node.id level =
      if level ≤ node.maxRepetition then some (targetAt before node after.head? level)
      else none := by
  unfold transition?
  rw [state?_eq distinct]
  exact targets_stateOf _

/-- Levels above the greatest of a leaf count as the greatest. -/
theorem next?_eq (distinct : ((before ++ node :: after).map (·.id)).Nodup) (level : Level) :
    (ofLeaves (before ++ node :: after)).next? node.id level =
      targetAt before node after.head? (min level node.maxRepetition) := by
  have count : (stateOf before node after.head?).targets.length - 1 = node.maxRepetition := by
    unfold stateOf
    rw [List.length_map, List.length_range, Nat.add_sub_cancel]
  have entry : (stateOf before node after.head?).targets[min level node.maxRepetition]? =
      some (targetAt before node after.head? (min level node.maxRepetition)) := by
    rw [targets_stateOf, if_pos (Nat.min_le_right _ _)]
  unfold next?
  rw [state?_eq distinct, Option.bind_eq_bind, Option.bind_some, count, entry]
  rfl

end States

/-! ### Above the barrier -/

section Restart

variable {before earlier later : List Node} {first node : Node} {barrier level : Level}

/-- No earlier leaf leads back at a level that none of them shares with the leaf. -/
theorem backTarget?_eq_none (apart : ∀ x ∈ before, x.commonRepetition node ≠ level) :
    backTarget? before node barrier level = none := by
  unfold backTarget?
  rw [Option.map_eq_none_iff, List.find?_eq_none]
  intro x member
  simp [apart x member]

/-- The first leaf that shares the level is found at the level that it shares. -/
theorem backTarget?_eq_of_first (below : barrier < level)
    (apart : ∀ x ∈ earlier, x.commonRepetition node < level)
    (reaches : level ≤ first.commonRepetition node) :
    backTarget? (earlier ++ first :: later) node barrier (first.commonRepetition node) =
      some first.id := by
  have skipped : earlier.find? (fun x => barrier < x.maxRepetition &&
      x.commonRepetition node == first.commonRepetition node) = none := by
    rw [List.find?_eq_none]
    intro x member
    have short := apart x member
    simp only [Bool.and_eq_true, decide_eq_true_eq, beq_iff_eq, not_and]
    lia
  have own := first.commonRepetition_le_maxRepetition node
  rw [backTarget?, List.find?_append, skipped, Option.none_or,
    List.find?_cons_of_pos (by simp; lia)]
  rfl

/-- If no earlier leaf shares the level, reading stays with the leaf itself. -/
theorem restart_self (apart : ∀ x ∈ before, x.commonRepetition node < level) :
    restart before node barrier level = node.id := by
  have nothing : (List.range' level (node.maxRepetition + 1 - level)).findSome?
      (backTarget? before node barrier) = none := by
    rw [List.findSome?_eq_none_iff]
    intro other inRange
    refine backTarget?_eq_none fun x member => ?_
    have least := (List.mem_range'_1.mp inRange).1
    exact Nat.ne_of_lt (Nat.lt_of_lt_of_le (apart x member) least)
  unfold restart
  rw [nothing]
  rfl

/-- **Reading goes back to the first leaf that shares the level**, if the level that leaves share
with the given one does not fall from there on. -/
theorem restart_eq_of_first (below : barrier < level)
    (apart : ∀ x ∈ earlier, x.commonRepetition node < level)
    (reaches : level ≤ first.commonRepetition node)
    (rises : ∀ y ∈ later, first.commonRepetition node ≤ y.commonRepetition node)
    (within : first.commonRepetition node ≤ node.maxRepetition) :
    restart (earlier ++ first :: later) node barrier level = first.id := by
  -- the levels from `level` up to the one that `first` shares, that one, and those above it
  have split : List.range' level (node.maxRepetition + 1 - level) =
      List.range' level (first.commonRepetition node - level) ++ first.commonRepetition node ::
        List.range' (first.commonRepetition node + 1)
          (node.maxRepetition - first.commonRepetition node) := by
    have parts := @List.range'_append_1 level (first.commonRepetition node - level)
      (node.maxRepetition - first.commonRepetition node + 1)
    rw [List.range'_succ, Nat.add_sub_cancel' reaches] at parts
    rw [parts]
    congr 1
    lia
  have nothing : (List.range' level (first.commonRepetition node - level)).findSome?
      (backTarget? (earlier ++ first :: later) node barrier) = none := by
    rw [List.findSome?_eq_none_iff]
    intro other inRange
    have bounds := List.mem_range'_1.mp inRange
    refine backTarget?_eq_none fun x member => ?_
    rcases List.mem_append.mp member with before | onward
    · have short := apart x before
      lia
    · rcases List.mem_cons.mp onward with rfl | after
      · lia
      · have far := rises x after
        lia
  rw [restart, split, List.findSome?_append, nothing, Option.none_or, List.findSome?_cons,
    backTarget?_eq_of_first below apart reaches]
  rfl

end Restart

/-- **Above the barrier reading goes back to the first leaf that shares the level.** -/
theorem exists_first_of_barrier_lt {before : List Node} {node : Node} {next : Option Node}
    {level : Level} (least : (before ++ [node]).Triplewise Node.LeastLevel)
    (within : ∀ x ∈ before, x.commonRepetition node ≤ node.maxRepetition)
    (above : barrier node next < level) (reached : level ≤ node.maxRepetition) :
    ∃ earlier first later, before ++ [node] = earlier ++ first :: later ∧
      targetAt before node next level = some first.id ∧
      (∀ x ∈ earlier, x.commonRepetition node < level) ∧ level ≤ first.commonRepetition node := by
  have back : targetAt before node next level =
      some (restart before node (barrier node next) level) := if_neg (Nat.not_le_of_lt above)
  -- the leaf itself shares the level, so there is a first leaf that does
  have found : ((before ++ [node]).find? fun x => level ≤ x.commonRepetition node).isSome := by
    rw [List.find?_isSome]
    refine ⟨node, List.mem_append_right _ (List.mem_singleton_self _), ?_⟩
    rw [Node.commonRepetition_self]
    exact decide_eq_true reached
  obtain ⟨first, found⟩ := Option.isSome_iff_exists.mp found
  obtain ⟨shares, earlier, later, parts, short⟩ := List.find?_eq_some_iff_append.mp found
  have shares : level ≤ first.commonRepetition node := of_decide_eq_true shares
  have short : ∀ x ∈ earlier, x.commonRepetition node < level := by
    intro x member
    simpa using short x member
  refine ⟨earlier, first, later, parts, ?_, short, shares⟩
  rw [back]
  cases later using List.reverseRecOn with
  | nil =>
    obtain ⟨rfl, last⟩ := List.append_inj' parts rfl
    rw [restart_self short, List.singleton_inj.mp last]
  | append_singleton later other =>
    rw [← List.cons_append, ← List.append_assoc] at parts
    obtain ⟨rfl, _⟩ := List.append_inj' parts rfl
    have rises : ∀ y ∈ later, first.commonRepetition node ≤ y.commonRepetition node := by
      intro y member
      have ordered := (List.triplewise_append.mp least).2.2.2 node (List.mem_singleton_self _)
      have law := (List.pairwise_cons.mp (List.pairwise_append.mp ordered).2.1).1 y member
      unfold Node.LeastLevel at law
      rw [law]
      exact Nat.min_le_right _ _
    rw [restart_eq_of_first above short shares rises (within first (by simp))]

/-! ### The machine of a projection -/

/-- Leaves in depth-first order, as a machine reads them. -/
structure IsOrder (nodes : List Node) : Prop where
  distinct : (nodes.map (·.id)).Nodup
  least : nodes.Triplewise Node.LeastLevel
  within : ∀ x ∈ nodes, ∀ y ∈ nodes, x.commonRepetition y ≤ y.maxRepetition

theorem triplewise_sublist {p : Node → Node → Node → Prop} {part whole : List Node}
    (among : part.Sublist whole) (each : whole.Triplewise p) : part.Triplewise p := by
  induction among with
  | slnil => exact each
  | cons _ _ ih => exact ih (List.triplewise_cons.mp each).2
  | cons_cons _ among ih =>
    obtain ⟨first, rest⟩ := List.triplewise_cons.mp each
    exact .cons (first.sublist among) (ih rest)

theorem isOrder_of_sublist {schema : Schema} (accepted : schema.IsAccepted) {nodes : List Node}
    (among : nodes.Sublist schema.leaves) : IsOrder nodes where
  distinct := accepted.nodup_leafIds.sublist (among.map _)
  least := triplewise_sublist among (Field.triplewise_commonRepetition_leaves accepted.wellFormed)
  within := by
    intro x first y second
    have nodeOf : ∀ {z}, z ∈ nodes → z ∈ schema.nodes :=
      fun member => List.mem_of_mem_filter (among.subset member)
    rw [accepted.commonRepetition_comm (nodeOf first) (nodeOf second)]
    exact y.commonRepetition_le_maxRepetition x

/-! ### Reading in order -/

namespace IsOrder

variable {before seg after : List Node} {first last next : Node} {level : Level}

/-- Up to the level that a leaf shares with the one after it, reading goes on. -/
theorem next?_onward (order : IsOrder (before ++ last :: next :: after))
    (shared : level ≤ last.commonRepetition next) :
    (ofLeaves (before ++ last :: next :: after)).next? last.id level = some next.id := by
  have reach : min level last.maxRepetition ≤ barrier last (some next) :=
    Nat.le_trans (Nat.min_le_left _ _) shared
  rw [next?_eq order.distinct, List.head?_cons, targetAt, if_pos reach]
  rfl

/-- After the last leaf, level 0 ends the record. -/
theorem next?_end (order : IsOrder (before ++ [last])) :
    (ofLeaves (before ++ [last])).next? last.id 0 = none := by
  rw [next?_eq order.distinct, Nat.zero_min, targetAt, if_pos (Nat.zero_le _)]
  rfl

/-- Leaves that share a level with the last of them, and with no leaf around them, are read again from
the first of them. -/
theorem next?_back (order : IsOrder (before ++ seg ++ after)) (begins : seg.head? = some first)
    (ends : seg.getLast? = some last) (positive : 0 < level)
    (outside : ∀ x ∈ before, x.commonRepetition last < level)
    (inside : ∀ x ∈ seg, level ≤ x.commonRepetition last)
    (beyond : ∀ y ∈ after, last.commonRepetition y < level) :
    (ofLeaves (before ++ seg ++ after)).next? last.id level = some first.id := by
  obtain ⟨init, rfl⟩ := List.getLast?_eq_some_iff.mp ends
  have parts : before ++ (init ++ [last]) ++ after = (before ++ init) ++ last :: after := by simp
  rw [parts] at order ⊢
  have above : barrier last after.head? < level := by
    cases after with
    | nil => exact positive
    | cons y after => exact beyond y List.mem_cons_self
  have reached : level ≤ last.maxRepetition := by
    have own := inside last (by simp)
    rwa [Node.commonRepetition_self] at own
  obtain ⟨earlier, back, later, split, target, short, shares⟩ :=
    exists_first_of_barrier_lt (triplewise_sublist (by simp) order.least)
      (fun x member => order.within x (List.mem_append_left _ member) last (by simp)) above reached
  rw [next?_eq order.distinct, Nat.min_eq_left reached, target]
  -- both are the first leaf that shares the level
  have found : (before ++ init ++ [last]).find? (fun x => level ≤ x.commonRepetition last) =
      some back := by
    rw [List.find?_eq_some_iff_append]
    refine ⟨decide_eq_true shares, earlier, later, split, fun x member => ?_⟩
    simpa using short x member
  have skipped : before.find? (fun x => level ≤ x.commonRepetition last) = none := by
    rw [List.find?_eq_none]
    intro x member
    simpa using outside x member
  obtain ⟨rest, whole⟩ : ∃ rest, init ++ [last] = first :: rest := List.head?_eq_some_iff.mp begins
  have shared : level ≤ first.commonRepetition last := inside first (by rw [whole]; simp)
  rw [List.append_assoc, whole, List.find?_append, skipped, Option.none_or,
    List.find?_cons_of_pos (by exact decide_eq_true shared)] at found
  rw [Option.some.inj found]

end IsOrder

/-- The machine of a projection is that of its selected leaves. -/
theorem ofProjection_eq {schema : Schema} {projection : Projection} (accepted : schema.IsAccepted)
    (own : projection.IsOf schema) :
    ofProjection schema projection = .ok (ofLeaves (projection.selected schema)) := by
  have inhabited : ¬ projection.isEmpty = true := by
    have fields := (own.exists_filter accepted).1
    simpa [Projection.isEmpty] using fields
  unfold ofProjection
  rw [if_neg inhabited, own.mapM_resolve accepted]
  rfl

end NestedColumns.Machine
