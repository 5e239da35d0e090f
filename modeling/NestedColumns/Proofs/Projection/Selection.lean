/-
The leaves that a projection selects.

* `Projection.IsOf schema p` — `p` was made for `schema`, from numbers, from paths, or as the
  selection of every leaf.
* `Projection.selected` — the selected leaves themselves, in depth-first order. The fields of the
  projection are their numbers (`IsOf.fields_eq`), and there is at least one (`IsOf.selected_ne_nil`).
* `Schema.IsAccepted.mem_leaves_iff_isPrefix` — the leaves of a node are those whose path begins with
  its own.
* `IsOf.covers_iff` — a field is covered exactly if a selected leaf lies at or below it.
-/

import NestedColumns.Proofs.Projection.LeafOrder
import NestedColumns.Proofs.Schema.Sharing

namespace NestedColumns

/-! ### Every group has a leaf -/

mutual

theorem Field.leaves_ne_nil {path : Path} {column : Nat} :
    ∀ {field : Field}, field.WellFormed → field.leaves path column ≠ []
  | .leaf _ _, _ => List.cons_ne_nil _ _
  | .group _ _, .group inhabited _ _ _ each => Field.leavesAll_ne_nil inhabited each

theorem Field.leavesAll_ne_nil {path : Path} {column : Nat} :
    ∀ {fields : List Field}, fields ≠ [] → (∀ field ∈ fields, field.WellFormed) →
      leavesAll path column fields ≠ []
  | field :: fields, _, each => by
    rw [leavesAll_cons]
    exact List.append_ne_nil_of_left_ne_nil
      (Field.leaves_ne_nil (each field List.mem_cons_self)) _

end

/-- The leaves at and below a node. -/
def Node.leaves (node : Node) : List Node :=
  node.subtree.filter (·.isLeaf)

mutual

theorem Field.leaves_ne_nil_of_mem_walk {path : Path} {column : Nat} {node : Node} :
    ∀ {field : Field}, field.WellFormed → node ∈ field.walk path column → node.leaves ≠ []
  | .leaf label type, _, member => by
    rw [walk, List.mem_singleton] at member
    rw [member]
    exact List.cons_ne_nil _ _
  | .group label children, wellFormed, member => by
    have own : (Field.group label children).leaves path column ≠ [] := Field.leaves_ne_nil wellFormed
    cases wellFormed with
    | group _ _ _ _ each =>
      rw [walk, List.mem_cons] at member
      rcases member with rfl | below
      · exact own
      · exact Field.leaves_ne_nil_of_mem_walkAll each below

theorem Field.leaves_ne_nil_of_mem_walkAll {path : Path} {column : Nat} {node : Node} :
    ∀ {fields : List Field}, (∀ field ∈ fields, field.WellFormed) →
      node ∈ walkAll path column fields → node.leaves ≠ []
  | field :: fields, each, member => by
    rw [List.forall_mem_cons] at each
    rw [walkAll, List.mem_append] at member
    rcases member with here | later
    · exact Field.leaves_ne_nil_of_mem_walk each.1 here
    · exact Field.leaves_ne_nil_of_mem_walkAll each.2 later

end

namespace Schema

variable {schema : Schema} {node leaf : Node}

/-- The leaves of a node are leaves of the schema. -/
theorem leaves_subset (member : node ∈ schema.nodes) : node.leaves ⊆ schema.leaves := by
  intro leaf below
  obtain ⟨below, isLeaf⟩ := List.mem_filter.mp below
  exact List.mem_filter.mpr ⟨Field.subtree_subset_walk member below, isLeaf⟩

/-- The leaves of a node are those whose path begins with that of the node. -/
theorem IsAccepted.mem_leaves_iff_isPrefix (accepted : schema.IsAccepted)
    (member : node ∈ schema.nodes) (isLeaf : leaf ∈ schema.leaves) :
    leaf ∈ node.leaves ↔ node.path <+: leaf.path := by
  obtain ⟨among, isLeaf⟩ := List.mem_filter.mp isLeaf
  rw [Node.leaves, List.mem_filter, and_iff_left isLeaf]
  exact ⟨Field.path_isPrefix_of_mem_walk,
    Field.mem_subtree_of_isPrefix accepted.wellFormed member among⟩

end Schema

namespace Projection

/-- A projection that was made for a schema. -/
inductive IsOf (schema : Schema) : Projection → Prop
  | ofIds {ids : List FieldId} {projection : Projection}
      (made : Projection.ofIds schema ids = .ok projection) : IsOf schema projection
  | ofPaths {paths : List String} {projection : Projection}
      (made : Projection.ofPaths schema paths = .ok projection) : IsOf schema projection
  | all : IsOf schema (Projection.all schema)

/-- The selected leaves, in depth-first order. -/
def selected (projection : Projection) (schema : Schema) : List Node :=
  schema.leaves.filter fun leaf => projection.contains leaf.id

theorem selected_sublist (projection : Projection) (schema : Schema) :
    (projection.selected schema).Sublist schema.leaves :=
  List.filter_sublist

theorem mem_nodes_of_mem_selected {projection : Projection} {schema : Schema} {leaf : Node}
    (member : leaf ∈ projection.selected schema) : leaf ∈ schema.nodes :=
  List.mem_of_mem_filter (List.mem_of_mem_filter member)

variable {schema : Schema} {projection : Projection}

/-- A projection holds at least one leaf, and some of the leaves in depth-first order. -/
theorem IsOf.exists_filter (accepted : schema.IsAccepted) (own : projection.IsOf schema) :
    projection.fields ≠ [] ∧
      ∃ pick : FieldId → Bool, projection.fields = schema.leafIds.filter pick := by
  have fromIds : ∀ {ids : List FieldId}, Projection.ofIds schema ids = .ok projection →
      projection.fields ≠ [] ∧
        ∃ pick : FieldId → Bool, projection.fields = schema.leafIds.filter pick := by
    intro ids made
    obtain ⟨⟨some, leaves, _⟩, fieldsEq⟩ := (ofIds_eq_ok accepted).mp made
    obtain ⟨id, rest, rfl⟩ := List.exists_cons_of_ne_nil some
    have held : id ∈ projection.fields := by
      rw [fieldsEq, List.mem_filter]
      exact ⟨leaves id List.mem_cons_self, by simp⟩
    exact ⟨List.ne_nil_of_mem held, _, fieldsEq⟩
  cases own with
  | ofIds made => exact fromIds made
  | ofPaths made =>
    obtain ⟨ids, _, made⟩ := bind_eq_ok.mp made
    exact fromIds made
  | all =>
    refine ⟨?_, fun _ => true, (List.filter_true _).symm⟩
    have leaves : schema.leaves ≠ [] := Field.leaves_ne_nil accepted.wellFormed
    exact fun none => leaves (List.map_eq_nil_iff.mp none)

/-- The fields of a projection are the numbers of its selected leaves. -/
theorem IsOf.fields_eq (accepted : schema.IsAccepted) (own : projection.IsOf schema) :
    projection.fields = (projection.selected schema).map (·.id) := by
  obtain ⟨_, pick, fieldsEq⟩ := own.exists_filter accepted
  have same : ∀ leaf ∈ schema.leaves, projection.contains leaf.id = pick leaf.id := by
    intro leaf member
    unfold contains
    rw [fieldsEq, Bool.eq_iff_iff, List.contains_iff_mem, List.mem_filter]
    exact and_iff_right (List.mem_map_of_mem member)
  rw [fieldsEq, Schema.leafIds, List.filter_map, selected, List.filter_congr same]
  rfl

theorem IsOf.selected_ne_nil (accepted : schema.IsAccepted) (own : projection.IsOf schema) :
    projection.selected schema ≠ [] := by
  intro none
  have fieldsEq := own.fields_eq accepted
  rw [none] at fieldsEq
  exact (own.exists_filter accepted).1 fieldsEq

/-- Looking up the fields of a projection finds the selected leaves. -/
theorem IsOf.mapM_resolve (accepted : schema.IsAccepted) (own : projection.IsOf schema) :
    projection.fields.mapM schema.resolve = .ok (projection.selected schema) := by
  rw [own.fields_eq accepted, mapM_eq_ok, List.forall₂_map_left_iff, List.forall₂_same]
  exact fun leaf member => accepted.resolve_id (mem_nodes_of_mem_selected member)

/-! ### Covered fields -/

theorem IsOf.covers_eq_true (accepted : schema.IsAccepted) (own : projection.IsOf schema)
    {id : FieldId} : projection.covers schema id = true ↔
      id = rootId ∨ ∃ leaf ∈ projection.selected schema, id ∈ Path.ids leaf.path := by
  unfold covers
  rw [Bool.or_eq_true, beq_iff_eq, own.fields_eq accepted, List.any_map, List.any_eq_true]
  refine or_congr_right (exists_congr fun leaf => and_congr_right fun member => ?_)
  rw [Function.comp_apply, accepted.node?_id (mem_nodes_of_mem_selected member)]
  exact List.contains_iff_mem

/-- **A field is covered exactly if a selected leaf lies at or below it.** -/
theorem IsOf.covers_iff (accepted : schema.IsAccepted) (own : projection.IsOf schema) {node : Node}
    (member : node ∈ schema.nodes) (field : node.path ≠ []) :
    projection.covers schema node.id = true ↔
      ∃ leaf ∈ node.leaves, projection.contains leaf.id = true := by
  rw [own.covers_eq_true accepted, or_iff_right ((accepted.path_ne_nil_iff member).mp field)]
  constructor
  · rintro ⟨leaf, picked, onPath⟩
    have among := mem_nodes_of_mem_selected picked
    obtain ⟨isLeaf, picked⟩ := List.mem_filter.mp picked
    refine ⟨leaf, (accepted.mem_leaves_iff_isPrefix member isLeaf).mpr ?_, picked⟩
    exact (accepted.id_mem_ids_iff member among field).mp onPath
  · rintro ⟨leaf, below, picked⟩
    have isLeaf := Schema.leaves_subset member below
    have leads := (accepted.mem_leaves_iff_isPrefix member isLeaf).mp below
    refine ⟨leaf, List.mem_filter.mpr ⟨isLeaf, picked⟩, ?_⟩
    exact (accepted.id_mem_ids_iff member (List.mem_of_mem_filter isLeaf) field).mpr leads

end Projection

end NestedColumns
