/-
The list of nodes that a schema was made from.

An accepted list can be read back from its schema: its entries are those of the nodes in the order
of their numbers (`Schema.Describes.map_fieldNodes`). Only the cardinality of the first entry is
forgotten.
-/

import NestedColumns.Proofs.Schema.Accepted

namespace NestedColumns

/-- The entry of a node in a parent-linked list. -/
def Node.entry (node : Node) : NodeEntry :=
  ⟨node.name, node.cardinality, node.type?, node.parentId?⟩

namespace Schema

variable {schema : Schema} {root entry : NodeEntry} {rest : List NodeEntry} {id : FieldId}
  {node : Node}

theorem type?_fieldOfEntry (entry : NodeEntry) (id : FieldId) (children : List Field) :
    (fieldOfEntry entry id children).type? = entry.type := by
  cases type : entry.type with
  | some scalar => rw [fieldOfEntry_of_some type, Field.type?]
  | none => rw [fieldOfEntry_of_none type, Field.type?]

/-- Every node below an entry is the field of an entry. -/
theorem Grown.exists_entry {entries : List (NodeEntry × FieldId)} {fields : List Field}
    (grown : Grown entries entry id fields) :
    ∀ {path : Path} {column : Nat}, node ∈ Field.walkAll path column fields →
      ∃ own, (own, node.id) ∈ entries ∧ own.name = node.name ∧ own.cardinality = node.cardinality ∧
        own.type = node.type? := by
  induction grown with
  | @node entry id children inside checked each ih =>
    intro path column member
    obtain ⟨field, among, first, here⟩ := Field.exists_of_mem_walkAll member
    obtain ⟨child, listed, rfl⟩ := List.mem_map.mp among
    rw [Field.mem_walk_iff, (each child listed).children_fieldOfEntry] at here
    rcases here with rfl | below
    · rw [(checkedChildren_eq_ok.mp checked).1] at listed
      refine ⟨child.1, ?_, ?_, ?_, (type?_fieldOfEntry _ _ _).symm⟩
      · rw [Node.id, Node.label, label_fieldOfEntry]
        exact List.mem_of_mem_filter listed
      · rw [Node.name, Node.label, label_fieldOfEntry]
      · rw [Node.cardinality, Node.label, label_fieldOfEntry]
    · exact ih child listed below

/-- **Every node but the root shows its entry.** -/
theorem Describes.mem_zipIdx_entry (describes : Describes root rest schema)
    (member : node ∈ schema.nodes) (field : node.id ≠ rootId) :
    (node.entry, node.id) ∈ rest.zipIdx 1 := by
  rcases List.mem_cons.mp member with rfl | below
  · exact absurd rfl field
  obtain ⟨own, listed, name, cardinality, type⟩ := describes.grown.exists_entry below
  have ends := Field.getLast?_path_of_mem_walkAll below
  obtain ⟨above, parts⟩ := List.getLast?_eq_some_iff.mp ends
  obtain ⟨chain, _⟩ := isChain_of_mem_nodes describes.grown member
  rw [parts, Path.ids, List.map_append, List.map_singleton] at chain
  obtain ⟨_, parent, atEnd, isParent⟩ := isParent_of_isChain chain
  have link : node.parentId? = some parent := by
    rw [← atEnd, List.getLast?_cons, Node.parentId?, Node.ancestry, parts, Path.ids, List.map_append,
      List.map_singleton, List.dropLast_concat]
    simp
  obtain ⟨other, listed', linked⟩ := isParent
  have same : other = own :=
    congrArg Prod.fst (List.inj_on_of_nodup_map (numbered_zipIdx rest).nodup listed' listed rfl)
  have entry : own = node.entry := by
    unfold Node.entry
    rw [link, ← name, ← cardinality, ← type, ← linked, same]
  exact entry ▸ listed

/-! ### Numbers -/

theorem Describes.isAccepted (describes : Describes root rest schema) : schema.IsAccepted :=
  ⟨root :: rest, ofEntries_eq_ok.mpr ⟨root, rest, rfl, describes⟩⟩

/-- The numbers of the nodes are the positions in the list. -/
theorem Describes.mem_ids_iff (describes : Describes root rest schema) :
    id ∈ schema.nodes.map (·.id) ↔ id < rest.length + 1 := by
  constructor
  · intro member
    obtain ⟨node, among, rfl⟩ := List.mem_map.mp member
    by_cases top : node.id = rootId
    · rw [top]
      exact Nat.succ_pos _
    · have listed := List.mem_map_of_mem (f := Prod.snd) (describes.mem_zipIdx_entry among top)
      rw [List.zipIdx_map_snd, List.mem_range'_1] at listed
      lia
  · intro inside
    cases id with
    | zero => exact List.mem_map.mpr ⟨schema.root, List.mem_cons_self, rfl⟩
    | succ id =>
      have listed : id + 1 ∈ (rest.zipIdx 1).map Prod.snd := by
        rw [List.zipIdx_map_snd, List.mem_range'_1]
        lia
      obtain ⟨entry, among, number⟩ := List.mem_map.mp listed
      have reached := describes.reached entry among
      rwa [number] at reached

theorem Describes.size_eq (describes : Describes root rest schema) :
    schema.size = rest.length + 1 := by
  have same : (schema.nodes.map (·.id)).Perm (List.range (rest.length + 1)) := by
    rw [List.perm_ext_iff_of_nodup describes.isAccepted.nodup_ids List.nodup_range]
    intro id
    rw [describes.mem_ids_iff, List.mem_range]
  have lengths := same.length_eq
  rwa [List.length_map, List.length_range] at lengths

theorem map_id_filterMap_node? {ids : List FieldId}
    (known : ∀ id ∈ ids, id ∈ schema.nodes.map (·.id)) (accepted : schema.IsAccepted) :
    (ids.filterMap schema.node?).map (·.id) = ids := by
  induction ids with
  | nil => rfl
  | cons id ids ih =>
    rw [List.forall_mem_cons] at known
    obtain ⟨node, among, rfl⟩ := List.mem_map.mp known.1
    rw [List.filterMap_cons_some (accepted.node?_id among), List.map_cons, ih known.2]

theorem Describes.map_id_fieldNodes (describes : Describes root rest schema) :
    schema.fieldNodes.map (·.id) = List.range' 1 rest.length := by
  have ids : (List.range schema.size).tail = List.range' 1 rest.length := by
    rw [describes.size_eq, List.range_eq_range', List.range'_succ, List.tail_cons]
  unfold fieldNodes
  rw [ids]
  refine map_id_filterMap_node? (fun id among => ?_) describes.isAccepted
  have inside := List.mem_range'_1.mp among
  exact describes.mem_ids_iff.mpr (by lia)

theorem mem_nodes_of_mem_fieldNodes (member : node ∈ schema.fieldNodes) : node ∈ schema.nodes := by
  obtain ⟨id, _, found⟩ := List.mem_filterMap.mp member
  exact (mem_nodes_of_node? found).1

/-- Lists with the same keys are equal if one is part of the other and no key is used twice. -/
theorem eq_of_subset_of_map_eq {α β : Type} {key : α → β} {first second : List α}
    (distinct : (second.map key).Nodup) (keys : first.map key = second.map key)
    (among : first ⊆ second) : first = second := by
  have lengths : first.length = second.length := by
    simpa using congrArg List.length keys
  refine List.ext_getElem lengths fun i inside inside' => ?_
  have same : key first[i] = key second[i] := by
    have atI : (first.map key)[i]? = (second.map key)[i]? := by rw [keys]
    simpa [inside, inside'] using atI
  have listed := among (List.getElem_mem inside)
  exact List.inj_on_of_nodup_map distinct listed (List.getElem_mem inside') same

/-- **The list of nodes is read back from the schema.** -/
theorem Describes.map_fieldNodes (describes : Describes root rest schema) :
    schema.fieldNodes.map (fun node => (node.entry, node.id)) = rest.zipIdx 1 := by
  refine eq_of_subset_of_map_eq (numbered_zipIdx rest).nodup ?_ ?_
  · rw [List.map_map, List.zipIdx_map_snd]
    exact describes.map_id_fieldNodes
  · intro entry member
    obtain ⟨node, among, rfl⟩ := List.mem_map.mp member
    have positive : node.id ∈ List.range' 1 rest.length := by
      rw [← describes.map_id_fieldNodes]
      exact List.mem_map_of_mem among
    refine describes.mem_zipIdx_entry (mem_nodes_of_mem_fieldNodes among) fun top => ?_
    rw [top, List.mem_range'_1] at positive
    exact absurd positive.1 (Nat.not_succ_le_zero 0)

end Schema

end NestedColumns
