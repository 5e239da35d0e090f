/-
Selections of leaves by their numbers.

The numbers are put into the order of the leaves, and a number that is given twice is looked for among
neighbours. Both do what they are for:

* `inLeafOrder_eq_filter` — **leaves that are given once each come out as the leaves of the schema,
  restricted to them**;
* `twice?_eq_none_iff`, `lt_count_of_twice?` — among numbers in order, one is followed by itself exactly
  if one is given twice.

So what `ofIds` gives is known for all numbers: `ofIds_notLeaf`, `ofIds_nil`, `ofIds_twice` and
`ofIds_once`.
-/

import NestedColumns.Projection.Basic
import NestedColumns.Proofs.Schema.Accepted

namespace NestedColumns.Projection

variable {schema : Schema} {ids : List FieldId}

/-! ### The order of the leaves -/

theorem leafOrdinal?_of_mem {id : FieldId} (leaf : id ∈ schema.leafIds) :
    (schema.leafOrdinal? id).getD 0 = schema.leafIds.idxOf id := by
  have found : schema.leafIds.findIdx? (· == id) = some (schema.leafIds.idxOf id) :=
    List.findIdx?_eq_some_of_exists ⟨id, leaf, beq_self_eq_true id⟩
  unfold Schema.leafOrdinal? List.idxOf?
  rw [found, Option.getD_some]

/-- Leaves have different ordinals. -/
theorem eq_of_leafOrdinal?_eq {a b : FieldId} (leaf : a ∈ schema.leafIds) (leaf' : b ∈ schema.leafIds)
    (same : (schema.leafOrdinal? a).getD 0 = (schema.leafOrdinal? b).getD 0) : a = b := by
  rw [leafOrdinal?_of_mem leaf, leafOrdinal?_of_mem leaf'] at same
  exact (List.idxOf_inj leaf).mp same

/-- The leaves of a schema stand in the order of their ordinals. -/
theorem pairwise_leafIds (accepted : schema.IsAccepted) : schema.leafIds.Pairwise fun a b =>
    (schema.leafOrdinal? a).getD 0 ≤ (schema.leafOrdinal? b).getD 0 := by
  rw [List.pairwise_iff_getElem]
  intro i j inside inside' before
  rw [leafOrdinal?_of_mem (List.getElem_mem inside), leafOrdinal?_of_mem (List.getElem_mem inside'),
    accepted.nodup_leafIds.idxOf_getElem, accepted.nodup_leafIds.idxOf_getElem]
  exact Nat.le_of_lt before

theorem inLeafOrder_perm (schema : Schema) (ids : List FieldId) : (inLeafOrder schema ids).Perm ids :=
  List.mergeSort_perm _ _

theorem pairwise_inLeafOrder (schema : Schema) (ids : List FieldId) :
    (inLeafOrder schema ids).Pairwise fun a b =>
      (schema.leafOrdinal? a).getD 0 ≤ (schema.leafOrdinal? b).getD 0 := by
  have sorted : (inLeafOrder schema ids).Pairwise fun a b =>
      decide ((schema.leafOrdinal? a).getD 0 ≤ (schema.leafOrdinal? b).getD 0) = true :=
    List.pairwise_mergeSort (fun a b c => by simpa using Nat.le_trans)
      (fun a b => by simpa using Nat.le_total _ _) ids
  simpa using sorted

/-- **Leaves that are given once each are put into the order of the schema.** Lists with the same
members in order are the same. -/
theorem inLeafOrder_eq_filter (accepted : schema.IsAccepted) (leaves : ∀ id ∈ ids, id ∈ schema.leafIds)
    (once : ids.Nodup) : inLeafOrder schema ids = schema.leafIds.filter ids.contains := by
  have members : (inLeafOrder schema ids).Perm (schema.leafIds.filter ids.contains) := by
    refine (inLeafOrder_perm schema ids).trans ?_
    refine (List.perm_ext_iff_of_nodup once (accepted.nodup_leafIds.filter _)).mpr fun id => ?_
    rw [List.mem_filter, List.contains_iff_mem]
    exact ⟨fun given => ⟨leaves id given, given⟩, fun both => both.2⟩
  refine members.eq_of_pairwise (fun a b given listed le ge => ?_) (pairwise_inLeafOrder schema ids)
    ((pairwise_leafIds accepted).filter _)
  have leaf : a ∈ schema.leafIds := leaves a ((inLeafOrder_perm schema ids).subset given)
  exact eq_of_leafOrdinal?_eq leaf (List.mem_of_mem_filter listed) (Nat.le_antisymm le ge)

/-! ### Numbers given twice -/

/-- A number that is followed by itself is there twice. -/
theorem lt_count_of_twice? {ordered : List FieldId} {id : FieldId} (found : twice? ordered = some id) :
    1 < ordered.count id := by
  induction ordered with
  | nil => cases found
  | cons first rest ih =>
    cases rest with
    | nil => cases found
    | cons second rest =>
      rw [twice?] at found
      by_cases same : first = second
      · rw [if_pos same] at found
        cases found
        simp [← same]
      · rw [if_neg same] at found
        exact Nat.lt_of_lt_of_le (ih found) List.count_le_count_cons

/-- **Among numbers in order, equal ones are neighbours.** -/
theorem twice?_eq_none_iff {ordered : List FieldId} {rank : FieldId → Nat}
    (sorted : ordered.Pairwise fun a b => rank a ≤ rank b)
    (distinct : ∀ a ∈ ordered, ∀ b ∈ ordered, rank a = rank b → a = b) :
    twice? ordered = none ↔ ordered.Nodup := by
  induction ordered with
  | nil => simp [twice?]
  | cons first rest ih =>
    cases rest with
    | nil => simp [twice?]
    | cons second rest =>
      have ih := ih sorted.of_cons fun a here b there =>
        distinct a (List.mem_cons_of_mem _ here) b (List.mem_cons_of_mem _ there)
      rw [twice?]
      by_cases same : first = second
      · simp [same]
      rw [if_neg same, ih, List.nodup_cons (a := first)]
      refine ⟨fun once => ⟨fun again => same ?_, once⟩, fun once => once.2⟩
      -- what comes again after the second cannot lie beyond it
      have notBefore := (List.pairwise_cons.mp sorted).1 second List.mem_cons_self
      have notBeyond : rank second ≤ rank first := by
        rcases List.mem_cons.mp again with here | later
        · exact Nat.le_of_eq (congrArg rank here.symm)
        · exact (List.pairwise_cons.mp sorted.of_cons).1 first later
      exact distinct first List.mem_cons_self second (by simp) (Nat.le_antisymm notBefore notBeyond)

/-! ### What a selection comes to -/

/-- The fault of a number that is not that of a leaf. -/
def notLeafFault (schema : Schema) (id : FieldId) : Fault :=
  match schema.node? id with
  | none => .schemaMismatch (Fault.fieldNumber id) (.notInSchema schema.name)
  | some node => .schemaMismatch node.pathText .groupProjected

/-- A number passes exactly if it is that of a leaf. -/
theorem checkLeaf_eq (accepted : schema.IsAccepted) (id : FieldId) :
    checkLeaf schema id =
      if id ∈ schema.leafIds then .ok () else .error (notLeafFault schema id) := by
  unfold checkLeaf Schema.resolve notLeafFault
  cases found : schema.node? id with
  | none =>
    have unknown : id ∉ schema.leafIds := by
      intro listed
      obtain ⟨leaf, member, rfl⟩ := List.mem_map.mp listed
      rw [accepted.node?_id (List.mem_of_mem_filter member)] at found
      cases found
    rw [if_neg unknown]
    rfl
  | some node =>
    obtain ⟨member, rfl⟩ := Schema.mem_nodes_of_node? found
    have listed : node.id ∈ schema.leafIds ↔ node.isLeaf = true := by
      constructor
      · intro listed
        obtain ⟨leaf, among, same⟩ := List.mem_map.mp listed
        obtain ⟨among, isLeaf⟩ := List.mem_filter.mp among
        rwa [accepted.eq_of_id_eq among member same] at isLeaf
      · exact fun isLeaf => List.mem_map_of_mem (List.mem_filter.mpr ⟨member, isLeaf⟩)
    by_cases isLeaf : node.isLeaf = true
    · rw [if_pos (listed.mpr isLeaf)]
      exact if_pos isLeaf
    · rw [if_neg (mt listed.mp isLeaf)]
      exact if_neg isLeaf

/-- The first number that is not that of a leaf is reported. -/
theorem checkLeaves_eq (accepted : schema.IsAccepted) (ids : List FieldId) :
    checkLeaves schema ids =
      match ids.find? fun id => id ∉ schema.leafIds with
      | none => .ok ()
      | some id => .error (notLeafFault schema id) := by
  unfold checkLeaves
  induction ids with
  | nil => rfl
  | cons id ids ih =>
    show (_ >>= fun _ => ids.forM _) = _
    rw [checkLeaf_eq accepted, ih]
    by_cases leaf : id ∈ schema.leafIds
    · rw [if_pos leaf, List.find?_cons_of_neg (by simpa using leaf)]
      rfl
    · rw [if_neg leaf, List.find?_cons_of_pos (by simpa using leaf)]
      rfl

section Selections

variable (accepted : schema.IsAccepted)

include accepted

/-- **A number that is not that of a leaf is refused**, the first of them. -/
theorem ofIds_notLeaf {id : FieldId} (first : ids.find? (fun id => id ∉ schema.leafIds) = some id) :
    ofIds schema ids = .error (notLeafFault schema id) := by
  unfold ofIds
  rw [checkLeaves_eq accepted, first]
  rfl

/-- Leaves are put into order and looked through. -/
theorem ofIds_leaves (given : ids ≠ []) (leaves : ∀ id ∈ ids, id ∈ schema.leafIds) :
    ofIds schema ids = ofOrdered schema (inLeafOrder schema ids) := by
  have known : ids.find? (fun id => id ∉ schema.leafIds) = none :=
    List.find?_eq_none.mpr fun id given => by simpa using leaves id given
  unfold ofIds
  rw [checkLeaves_eq accepted, known, List.isEmpty_eq_false_iff.mpr given]
  rfl

end Selections

/-- Two leaves that are given are equal if they are equal in order. -/
theorem twice?_inLeafOrder (leaves : ∀ id ∈ ids, id ∈ schema.leafIds) :
    twice? (inLeafOrder schema ids) = none ↔ ids.Nodup := by
  have permuted := inLeafOrder_perm schema ids
  rw [← permuted.nodup_iff]
  refine twice?_eq_none_iff (pairwise_inLeafOrder schema ids) fun a given b given' => ?_
  exact eq_of_leafOrdinal?_eq (leaves a (permuted.subset given)) (leaves b (permuted.subset given'))

/-- **A leaf that is given more than once is refused.** -/
theorem ofIds_twice (accepted : schema.IsAccepted) (leaves : ∀ id ∈ ids, id ∈ schema.leafIds)
    (again : ¬ ids.Nodup) :
    ∃ leaf ∈ schema.leaves, 1 < ids.count leaf.id ∧
      ofIds schema ids = .error (.schemaMismatch leaf.pathText .projectedTwice) := by
  have given : ids ≠ [] := by
    rintro rfl
    exact again List.nodup_nil
  obtain ⟨id, found⟩ := Option.ne_none_iff_exists'.mp (mt (twice?_inLeafOrder leaves).mp again)
  have often : 1 < ids.count id :=
    (inLeafOrder_perm schema ids).count_eq id ▸ lt_count_of_twice? found
  obtain ⟨leaf, listed, rfl⟩ := List.mem_map.mp
    (leaves id (List.count_pos_iff.mp (Nat.lt_trans Nat.zero_lt_one often)))
  refine ⟨leaf, listed, often, ?_⟩
  rw [ofIds_leaves accepted given leaves, ofOrdered, found]
  show (schema.resolve leaf.id >>= _) = _
  rw [accepted.resolve_id (List.mem_of_mem_filter listed)]
  rfl

/-- **Leaves that are given once each are selected**, in the order of the schema. -/
theorem ofIds_once (accepted : schema.IsAccepted) (given : ids ≠ [])
    (leaves : ∀ id ∈ ids, id ∈ schema.leafIds) (once : ids.Nodup) :
    ofIds schema ids = .ok ⟨schema.leafIds.filter ids.contains⟩ := by
  rw [ofIds_leaves accepted given leaves, ofOrdered, (twice?_inLeafOrder leaves).mpr once,
    inLeafOrder_eq_filter accepted leaves once]

/-- No numbers make no selection. -/
theorem ofIds_nil (schema : Schema) : ofIds schema [] = .error (.invalidArgument .noFieldsSelected) :=
  rfl

/-- What a projection made from numbers is: some of the leaves, each given once. -/
theorem ofIds_eq_ok (accepted : schema.IsAccepted) {projection : Projection} :
    ofIds schema ids = .ok projection ↔
      (ids ≠ [] ∧ (∀ id ∈ ids, id ∈ schema.leafIds) ∧ ids.Nodup) ∧
        projection.fields = schema.leafIds.filter ids.contains := by
  constructor
  · intro made
    have given : ids ≠ [] := by
      rintro rfl
      cases made
    have leaves : ∀ id ∈ ids, id ∈ schema.leafIds := by
      cases first : ids.find? (fun id => id ∉ schema.leafIds) with
      | none => exact fun id given => by simpa using List.find?_eq_none.mp first id given
      | some id =>
        rw [ofIds_notLeaf accepted first] at made
        cases made
    have once : ids.Nodup := by
      by_contra again
      obtain ⟨leaf, _, _, refused⟩ := ofIds_twice accepted leaves again
      rw [refused] at made
      cases made
    rw [ofIds_once accepted given leaves once] at made
    cases made
    exact ⟨⟨given, leaves, once⟩, rfl⟩
  · rintro ⟨⟨given, leaves, once⟩, fields⟩
    rw [ofIds_once accepted given leaves once, ← fields]

end NestedColumns.Projection
