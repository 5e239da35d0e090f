/-
The order of the list of nodes.

A node has the position of its entry as its number. If the entries are put in another order, with
their parents named by the new positions and with siblings in the order that they had (`Renumbers`),
then the new list is accepted if the old one was, and its schema is the old one with new numbers
(`Renumbers.ofEntries_eq`): it is what a projection keeps that covers everything.
-/

import Mathlib.Logic.Equiv.Defs
import NestedColumns.Proofs.Projection.Reduced

namespace NestedColumns

/-- The field with new numbers at every depth. -/
def Field.renumber (number : FieldId → FieldId) (field : Field) : Field :=
  field.keep (fun _ => true) number

/-- Where everything is covered every group is spanned. -/
theorem Field.WellFormed.spanned {field : Field} (wellFormed : field.WellFormed) :
    field.Spanned (fun _ => true) := by
  induction wellFormed with
  | leaf label type => exact .leaf label type
  | group inhabited _ _ _ _ ih =>
    obtain ⟨child, member⟩ := List.exists_mem_of_ne_nil _ inhabited
    exact .group (iff_of_true rfl ⟨child, member, rfl⟩) ih

namespace Schema

/-- The schema with new numbers. -/
def renumber (number : FieldId → FieldId) (schema : Schema) : Schema :=
  schema.keep (fun _ => true) number

/-- **The second list is the first one in another order.** The entry at a position now stands at the
number of that position, the root at the first one, and siblings stand in the order that they had. -/
structure Renumbers (number : Equiv.Perm FieldId) (entries entries' : List NodeEntry) : Prop where
  number_root : number rootId = rootId
  listed : ∀ id, entries'[number id]? = entries[id]?.map (NodeEntry.renumber number)
  siblings : ∀ a b parent, entries[a]?.bind (·.parent) = some parent →
    entries[b]?.bind (·.parent) = some parent → a < b → number a < number b

variable {number : Equiv.Perm FieldId} {entries entries' : List NodeEntry} {root root' : NodeEntry}
  {rest rest' : List NodeEntry} {schema : Schema} {id : FieldId} {node : Node}

/-! ### Lists in another order -/

theorem Renumbers.listed_symm (renumbers : Renumbers number entries entries') (id : FieldId) :
    entries'[id]? = entries[number.symm id]?.map (NodeEntry.renumber number) := by
  have there := renumbers.listed (number.symm id)
  rwa [Equiv.apply_symm_apply] at there

/-- Putting the entries back into their order is another such change. -/
theorem Renumbers.symm (renumbers : Renumbers number entries entries') :
    Renumbers number.symm entries' entries where
  number_root := by rw [Equiv.symm_apply_eq, renumbers.number_root]
  listed := by
    intro id
    rw [renumbers.listed_symm, Option.map_map]
    cases entries[number.symm id]? with
    | none => rfl
    | some entry =>
      show some entry = some ((entry.renumber number).renumber number.symm)
      unfold NodeEntry.renumber
      simp
  siblings := by
    intro a b parent first second before
    have parents : ∀ id, entries'[id]?.bind (·.parent) = some parent →
        entries[number.symm id]?.bind (·.parent) = some (number.symm parent) := by
      intro id linked
      rw [renumbers.listed_symm, Option.bind_map] at linked
      obtain ⟨entry, found, renamed⟩ := Option.bind_eq_some_iff.mp linked
      obtain ⟨above, own, rfl⟩ := Option.map_eq_some_iff.mp renamed
      rw [found, Equiv.symm_apply_apply]
      exact own
    rcases Nat.lt_trichotomy (number.symm a) (number.symm b) with less | same | more
    · exact less
    · exact absurd (number.symm.injective same) (Nat.ne_of_lt before)
    · have back := renumbers.siblings _ _ _ (parents b second) (parents a first) more
      rw [Equiv.apply_symm_apply, Equiv.apply_symm_apply] at back
      exact absurd before (Nat.not_lt_of_lt back)

theorem pairwise_lt_zipIdx (list : List NodeEntry) (first : Nat) :
    (list.zipIdx first).Pairwise (·.2 < ·.2) := by
  have positions : ((list.zipIdx first).map Prod.snd).Pairwise (· < ·) := by
    rw [List.zipIdx_map_snd]
    exact List.pairwise_lt_range'
  exact List.pairwise_map.mp positions

section Lists

variable (renumbers : Renumbers number (root :: rest) (root' :: rest'))

include renumbers

theorem Renumbers.root_eq : root' = root.renumber number := by
  have top := renumbers.listed rootId
  rw [renumbers.number_root] at top
  exact Option.some.inj top

/-- The numbered entries of the new list are those of the old one under their new numbers. -/
theorem Renumbers.perm :
    (rest'.zipIdx 1).Perm (keptEntries (fun _ => true) number (rest.zipIdx 1)) := by
  have distinct : (rest'.zipIdx 1).Nodup := (numbered_zipIdx rest').nodup.of_map
  have distinct' : (keptEntries (fun _ => true) number (rest.zipIdx 1)).Nodup := by
    refine .of_map Prod.snd ?_
    have apart := (numbered_zipIdx rest).nodup.map number.injective
    rw [keptEntries, List.filter_eq_self.mpr fun _ _ => rfl, List.map_map]
    rwa [List.map_map] at apart
  rw [List.perm_ext_iff_of_nodup distinct distinct']
  rintro ⟨entry, id⟩
  rw [mem_zipIdx_iff root', renumbers.listed_symm]
  constructor
  · rintro ⟨field, found⟩
    obtain ⟨old, listed, rfl⟩ := Option.map_eq_some_iff.mp found
    have field' : number.symm id ≠ rootId := by
      rw [ne_eq, Equiv.symm_apply_eq, renumbers.number_root]
      exact field
    have among := (mem_zipIdx_iff root).mpr ⟨field', listed⟩
    refine List.mem_map.mpr ⟨_, List.mem_filter.mpr ⟨among, rfl⟩, ?_⟩
    rw [Equiv.apply_symm_apply]
  · intro kept
    obtain ⟨⟨old, position⟩, among, same⟩ := List.mem_map.mp kept
    cases same
    obtain ⟨field, listed⟩ := (mem_zipIdx_iff root).mp (List.mem_of_mem_filter among)
    rw [Equiv.symm_apply_apply, listed]
    refine ⟨fun top => field (number.injective ?_), rfl⟩
    rw [renumbers.number_root]
    exact top

/-- Every entry has the children that it had, in the same order. -/
theorem Renumbers.childEntries_eq (id : FieldId) : childEntries (rest'.zipIdx 1) id =
    childEntries (keptEntries (fun _ => true) number (rest.zipIdx 1)) id := by
  have ordered : (childEntries (rest'.zipIdx 1) id).Pairwise (·.2 < ·.2) :=
    (pairwise_lt_zipIdx rest' 1).filter _
  have ordered' : (childEntries (keptEntries (fun _ => true) number (rest.zipIdx 1)) id).Pairwise
      (·.2 < ·.2) := by
    unfold childEntries keptEntries
    rw [List.pairwise_filter, List.pairwise_map]
    refine ((pairwise_lt_zipIdx rest 1).filter _).imp_of_mem ?_
    rintro ⟨a, i⟩ ⟨b, j⟩ first second less renamed renamed'
    obtain ⟨_, listed⟩ := (mem_zipIdx_iff root).mp (List.mem_of_mem_filter first)
    obtain ⟨_, listed'⟩ := (mem_zipIdx_iff root).mp (List.mem_of_mem_filter second)
    obtain ⟨parent, linked, rfl⟩ := Option.map_eq_some_iff.mp (of_decide_eq_true renamed)
    obtain ⟨parent', linked', same⟩ := Option.map_eq_some_iff.mp (of_decide_eq_true renamed')
    obtain rfl := number.injective same
    exact renumbers.siblings i j _ (Option.bind_eq_some_iff.mpr ⟨a, listed, linked⟩)
      (Option.bind_eq_some_iff.mpr ⟨b, listed', linked'⟩) less
  refine List.Perm.eq_of_pairwise ?_ ordered ordered' (renumbers.perm.filter _)
  exact fun a b _ _ less more => absurd less (Nat.not_lt_of_lt more)

theorem Renumbers.keepsEntries (parentless : root.parent = none) (untyped : root.type = none) :
    KeepsEntries (fun _ => true) number root rest root' rest' where
  separates := fun _ _ _ same => number.injective same
  covers_root := rfl
  number_root := renumbers.number_root
  upward := fun _ _ => rfl
  parentless := by rw [renumbers.root_eq, NodeEntry.renumber, parentless]; rfl
  untyped := by rw [renumbers.root_eq]; exact untyped
  name := by rw [renumbers.root_eq]; rfl
  entries := renumbers.perm
  siblings := renumbers.childEntries_eq

end Lists

/-! ### Schemas with other numbers -/

theorem IsAccepted.spanned (accepted : schema.IsAccepted) :
    (∀ field ∈ schema.fields, field.Spanned (fun _ => true)) ∧ schema.fields ≠ [] := by
  cases accepted.wellFormed with
  | group inhabited _ _ _ each => exact ⟨fun field member => (each field member).spanned, inhabited⟩

/-- **The list in another order has the schema with new numbers.** -/
theorem Renumbers.ofEntries_eq (renumbers : Renumbers number entries entries')
    (accepted : ofEntries entries = .ok schema) :
    ofEntries entries' = .ok (schema.renumber number) := by
  obtain ⟨root, rest, rfl, describes⟩ := ofEntries_eq_ok.mp accepted
  obtain ⟨root', rest', rfl⟩ : ∃ root' rest', entries' = root' :: rest' := by
    refine List.exists_cons_of_ne_nil fun none => ?_
    have top := renumbers.listed rootId
    rw [none] at top
    cases top
  obtain ⟨spanned, inhabited⟩ := describes.isAccepted.spanned
  obtain ⟨field, member⟩ := List.exists_mem_of_ne_nil _ inhabited
  have keeps := renumbers.keepsEntries describes.parentless describes.untyped
  exact ofEntries_eq_ok.mpr ⟨root', rest', rfl,
    Describes.keep keeps describes spanned ⟨field, member, rfl⟩⟩

/-- The nodes of the two schemas correspond, in depth-first order. -/
theorem IsAccepted.forall₂_nodes_renumber (accepted : schema.IsAccepted)
    (fixed : number rootId = rootId) :
    List.Forall₂ (Node.Keeps (fun _ => true) number) schema.nodes (schema.renumber number).nodes := by
  have nodes : List.Forall₂ (Node.Keeps (fun _ => true) number)
      (schema.nodes.filter fun _ => true) (schema.renumber number).nodes :=
    forall₂_nodes_keep rfl fixed accepted.spanned.1
  rwa [List.filter_eq_self.mpr fun _ _ => rfl] at nodes

/-- The leaves of the two schemas correspond position by position. -/
theorem IsAccepted.leafIds_renumber (accepted : schema.IsAccepted)
    (fixed : number rootId = rootId) :
    (schema.renumber number).leafIds = schema.leafIds.map number := by
  have leaves := List.rel_filter (p := (·.isLeaf)) (q := (·.isLeaf))
    (fun node kept keeps => by dsimp only; rw [keeps.isLeaf])
    (accepted.forall₂_nodes_renumber fixed)
  unfold leafIds
  rw [List.map_map, eq_comm, ← List.forall₂_eq_eq_eq, List.forall₂_map_left_iff,
    List.forall₂_map_right_iff]
  exact leaves.imp fun node kept keeps => keeps.id.symm

/-- A node is found under its new number. -/
theorem IsAccepted.node?_renumber (accepted : schema.IsAccepted)
    (accepted' : (schema.renumber number).IsAccepted) (fixed : number rootId = rootId) (id : FieldId) :
    Option.Rel (Node.Keeps (fun _ => true) number) (schema.node? id)
      ((schema.renumber number).node? (number id)) := by
  have nodes := accepted.forall₂_nodes_renumber fixed
  cases found : schema.node? id with
  | some node =>
    obtain ⟨member, rfl⟩ := mem_nodes_of_node? found
    obtain ⟨kept, among, keeps⟩ := exists_of_mem_of_forall₂ nodes member
    rw [← keeps.id, accepted'.node?_id among]
    exact .some keeps
  | none =>
    cases found' : (schema.renumber number).node? (number id) with
    | none => exact .none
    | some kept =>
      obtain ⟨among, same⟩ := mem_nodes_of_node? found'
      obtain ⟨node, member, keeps⟩ := exists_of_mem_of_forall₂ nodes.flip among
      obtain rfl := number.injective (keeps.id.symm.trans same)
      rw [accepted.node?_id member] at found
      cases found

end Schema

end NestedColumns
