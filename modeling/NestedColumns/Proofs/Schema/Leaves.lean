/-
Leaves below a place of the schema.

* `Field.leaves`, `Field.leavesAll` list the leaves at and below a field, and below a list of
  siblings, by recursion on the tree; `Schema.leaves_eq` says that they are the leaves of a schema.
* `map_column_leavesAll`: the columns of the leaves below a place are consecutive, so the position of
  a leaf among the leaves of its schema is its column (`column_of_leaves_getElem?`).
* `path_isPrefix_of_mem_leavesAll`: the path of a leaf leads through one of the siblings it lies below.
-/

import Mathlib.Data.List.Basic
import NestedColumns.Schema.Basic

namespace NestedColumns

namespace Field

/-- The leaves at and below a field, in depth-first order. -/
def leaves (path : Path) (column : Nat) (field : Field) : List Node :=
  (field.walk path column).filter (·.isLeaf)

/-- The leaves below a list of siblings, in depth-first order. -/
def leavesAll (path : Path) (column : Nat) (fields : List Field) : List Node :=
  (walkAll path column fields).filter (·.isLeaf)

theorem leaves_leaf (path : Path) (column : Nat) (label : Label) (type : ScalarType) :
    (Field.leaf label type).leaves path column = [⟨path, column, .leaf label type⟩] := rfl

theorem leaves_group (path : Path) (column : Nat) (label : Label) (children : List Field) :
    (Field.group label children).leaves path column = leavesAll path column children := rfl

theorem leavesAll_nil (path : Path) (column : Nat) : leavesAll path column [] = [] := rfl

theorem leavesAll_cons (path : Path) (column : Nat) (field : Field) (fields : List Field) :
    leavesAll path column (field :: fields) =
      field.leaves (path ++ [field.label]) column ++
        leavesAll path (column + field.leafCount) fields := by
  rw [leavesAll, walkAll, List.filter_append]
  rfl

/-! ### Columns -/

mutual

theorem map_column_leaves (path : Path) (column : Nat) :
    ∀ field : Field, (field.leaves path column).map (·.column) =
      List.range' column field.leafCount
  | .leaf label type => rfl
  | .group label children => by
    rw [leaves_group, leafCount]
    exact map_column_leavesAll path column children

/-- The columns of the leaves below a list of siblings are consecutive. -/
theorem map_column_leavesAll (path : Path) (column : Nat) :
    ∀ fields : List Field, (leavesAll path column fields).map (·.column) =
      List.range' column (leafCounts fields)
  | [] => rfl
  | field :: fields => by
    rw [leavesAll_cons, List.map_append, map_column_leaves _ column field,
      map_column_leavesAll path _ fields, leafCounts, ← List.range'_append_1]

end

/-- The columns of the leaves of a field are those from its first on, as many as it has leaves. -/
theorem column_mem_range_of_mem_leaves {path : Path} {column : Nat} {field : Field} {node : Node}
    (member : node ∈ field.leaves path column) :
    column ≤ node.column ∧ node.column < column + field.leafCount := by
  have inside := List.mem_map_of_mem (f := (·.column)) member
  rw [map_column_leaves] at inside
  simpa using inside

/-! ### Paths -/

theorem exists_of_mem_walkAll {path : Path} {node : Node} :
    ∀ {column : Nat} {fields : List Field}, node ∈ walkAll path column fields →
      ∃ field ∈ fields, ∃ first, node ∈ field.walk (path ++ [field.label]) first
  | column, field :: fields, member => by
    rw [walkAll, List.mem_append] at member
    rcases member with here | later
    · exact ⟨field, List.mem_cons_self, column, here⟩
    · obtain ⟨other, among, first, below⟩ := exists_of_mem_walkAll later
      exact ⟨other, List.mem_cons_of_mem _ among, first, below⟩

theorem exists_mem_walkAll {path : Path} {field : Field} :
    ∀ {column : Nat} {fields : List Field}, field ∈ fields →
      ∃ node ∈ walkAll path column fields, node.field = field
  | column, other :: fields, member => by
    rw [walkAll]
    rcases List.mem_cons.mp member with rfl | later
    · refine ⟨⟨path ++ [field.label], column, field⟩, List.mem_append_left _ ?_, rfl⟩
      cases field <;> exact List.mem_cons_self
    · obtain ⟨node, among, same⟩ := exists_mem_walkAll later
      exact ⟨node, List.mem_append_right _ among, same⟩

/-- The nodes at and below a field are the field itself and the nodes below its children. -/
theorem mem_walk_iff {path : Path} {column : Nat} {field : Field} {node : Node} :
    node ∈ field.walk path column ↔
      node = ⟨path, column, field⟩ ∨ node ∈ walkAll path column field.children := by
  cases field with
  | leaf label type => simp [walk, children, walkAll]
  | group label children => rw [walk, List.mem_cons, Field.children]

mutual

/-- The path of every node at or below a field begins with the path of the field. -/
theorem path_isPrefix_of_mem_walk {path : Path} {column : Nat} {node : Node} :
    ∀ {field : Field}, node ∈ field.walk path column → path <+: node.path
  | .leaf label type, member => by
    rw [walk, List.mem_singleton] at member
    subst member
    exact List.prefix_rfl
  | .group label children, member => by
    rw [walk, List.mem_cons] at member
    rcases member with rfl | below
    · exact List.prefix_rfl
    · obtain ⟨field, _, through⟩ := path_isPrefix_of_mem_walkAll below
      exact (List.prefix_append path _).trans through

/-- The path of every node below a list of siblings leads through one of them. -/
theorem path_isPrefix_of_mem_walkAll {path : Path} {column : Nat} {node : Node} :
    ∀ {fields : List Field}, node ∈ walkAll path column fields →
      ∃ field ∈ fields, path ++ [field.label] <+: node.path
  | field :: fields, member => by
    rw [walkAll, List.mem_append] at member
    rcases member with here | later
    · exact ⟨field, List.mem_cons_self, path_isPrefix_of_mem_walk here⟩
    · obtain ⟨other, among, through⟩ := path_isPrefix_of_mem_walkAll later
      exact ⟨other, List.mem_cons_of_mem _ among, through⟩

end

theorem path_ne_nil_of_mem_walkAll {path : Path} {column : Nat} {node : Node} {fields : List Field}
    (member : node ∈ walkAll path column fields) : node.path ≠ [] := by
  obtain ⟨field, _, through⟩ := path_isPrefix_of_mem_walkAll member
  intro none
  rw [none, List.prefix_nil] at through
  exact List.concat_ne_nil _ _ through

mutual

/-- The path of a node ends with the node itself. -/
theorem getLast?_path_of_mem_walk {path : Path} {column : Nat} {node : Node} :
    ∀ {field : Field}, path.getLast? = some field.label → node ∈ field.walk path column →
      node.path.getLast? = some node.label
  | .leaf label type, last, member => by
    rw [walk, List.mem_singleton] at member
    rw [member]
    exact last
  | .group label children, last, member => by
    rw [walk, List.mem_cons] at member
    rcases member with rfl | below
    · exact last
    · exact getLast?_path_of_mem_walkAll below

theorem getLast?_path_of_mem_walkAll {path : Path} {column : Nat} {node : Node} :
    ∀ {fields : List Field}, node ∈ walkAll path column fields →
      node.path.getLast? = some node.label
  | field :: fields, member => by
    rw [walkAll, List.mem_append] at member
    rcases member with here | later
    · exact getLast?_path_of_mem_walk (List.getLast?_concat ..) here
    · exact getLast?_path_of_mem_walkAll later

end

mutual

/-- The subtree of a node lies in every subtree that the node lies in. -/
theorem subtree_subset_walk {path : Path} {column : Nat} {node : Node} :
    ∀ {field : Field}, node ∈ field.walk path column → node.subtree ⊆ field.walk path column
  | .leaf label type, member => by
    rw [walk, List.mem_singleton] at member
    rw [member]
    exact List.Subset.refl _
  | .group label children, member => by
    rw [walk, List.mem_cons] at member
    rcases member with rfl | below
    · exact List.Subset.refl _
    · exact List.subset_cons_of_subset _ (subtree_subset_walkAll below)

theorem subtree_subset_walkAll {path : Path} {column : Nat} {node : Node} :
    ∀ {fields : List Field}, node ∈ walkAll path column fields →
      node.subtree ⊆ walkAll path column fields
  | field :: fields, member => by
    rw [walkAll, List.mem_append] at member
    rcases member with here | later
    · exact List.subset_append_of_subset_left _ (subtree_subset_walk here)
    · exact List.subset_append_of_subset_right _ (subtree_subset_walkAll later)

end

theorem path_isPrefix_of_mem_leaves {path : Path} {column : Nat} {field : Field} {node : Node}
    (member : node ∈ field.leaves path column) : path <+: node.path :=
  path_isPrefix_of_mem_walk (List.mem_of_mem_filter member)

/-- The path of every leaf below a list of siblings leads through one of them. -/
theorem path_isPrefix_of_mem_leavesAll {path : Path} {column : Nat} {fields : List Field}
    {node : Node} (member : node ∈ leavesAll path column fields) :
    ∃ field ∈ fields, path ++ [field.label] <+: node.path :=
  path_isPrefix_of_mem_walkAll (List.mem_of_mem_filter member)

end Field

/-! ### Children -/

namespace Node

theorem map_label_childrenFrom (path : Path) (column : Nat) (fields : List Field) :
    (childrenFrom path column fields).map (·.label) = fields.map (·.label) := by
  induction fields generalizing column with
  | nil => rfl
  | cons field fields ih =>
    rw [childrenFrom, List.map_cons, List.map_cons, ih]
    rfl

theorem map_label_children (node : Node) :
    node.children.map (·.label) = node.field.children.map (·.label) :=
  map_label_childrenFrom node.path node.column node.field.children

/-- The children of a node are the nodes below it that stand one step deeper. -/
theorem mem_childrenFrom_iff {path : Path} {column : Nat} {fields : List Field} {node : Node} :
    node ∈ childrenFrom path column fields ↔
      node ∈ Field.walkAll path column fields ∧ node.path.length = path.length + 1 := by
  induction fields generalizing column with
  | nil => simp [childrenFrom, Field.walkAll]
  | cons field fields ih =>
    have deeper : node ∈ Field.walkAll (path ++ [field.label]) column field.children →
        node.path.length ≠ path.length + 1 := by
      intro below same
      obtain ⟨other, _, through⟩ := Field.path_isPrefix_of_mem_walkAll below
      have lengths := through.length_le
      rw [same, List.length_append, List.length_append] at lengths
      exact absurd lengths (Nat.not_succ_le_self _)
    rw [childrenFrom, Field.walkAll, List.mem_cons, List.mem_append, Field.mem_walk_iff, ih]
    constructor
    · rintro (rfl | ⟨later, same⟩)
      · exact ⟨.inl (.inl rfl), List.length_append⟩
      · exact ⟨.inr later, same⟩
    · rintro ⟨(here | below) | later, same⟩
      · exact .inl here
      · exact absurd same (deeper below)
      · exact .inr ⟨later, same⟩

end Node

/-- The nodes below a node lie in its subtree. -/
theorem Node.walkAll_children_subset (node : Node) :
    Field.walkAll node.path node.column node.field.children ⊆ node.subtree := by
  intro below member
  exact Field.mem_walk_iff.mpr (.inr member)

theorem Node.exists_type (node : Node) (isLeaf : node.isLeaf = true) :
    ∃ type, node.type? = some type :=
  Option.isSome_iff_exists.mp isLeaf

namespace Schema

theorem leaves_eq (schema : Schema) : schema.leaves = Field.leavesAll [] 0 schema.fields := rfl

/-- The nodes below the root are those that have a path. -/
theorem mem_tail_nodes_iff {schema : Schema} {node : Node} :
    node ∈ schema.nodes.tail ↔ node ∈ schema.nodes ∧ node.path ≠ [] := by
  constructor
  · intro below
    exact ⟨List.mem_of_mem_tail below, Field.path_ne_nil_of_mem_walkAll below⟩
  · rintro ⟨member, field⟩
    rcases List.mem_cons.mp member with rfl | below
    · exact absurd rfl field
    · exact below

/-- The path of a node other than the root ends with the node itself. -/
theorem getLast?_path_of_mem_nodes {schema : Schema} {node : Node} (member : node ∈ schema.nodes)
    (field : node.path ≠ []) : node.path.getLast? = some node.label :=
  Field.getLast?_path_of_mem_walkAll (mem_tail_nodes_iff.mpr ⟨member, field⟩)

theorem getLast?_path_of_mem_leaves {schema : Schema} {node : Node} (member : node ∈ schema.leaves) :
    node.path.getLast? = some node.label := by
  rw [leaves_eq] at member
  exact Field.getLast?_path_of_mem_walkAll (List.mem_of_mem_filter member)

theorem path_ne_nil_of_mem_leaves {schema : Schema} {node : Node} (member : node ∈ schema.leaves) :
    node.path ≠ [] := by
  rw [leaves_eq] at member
  exact Field.path_ne_nil_of_mem_walkAll (List.mem_of_mem_filter member)

/-- The position of a leaf among the leaves of its schema is its column. -/
theorem column_of_leaves_getElem? {schema : Schema} {position : Nat} {node : Node}
    (found : schema.leaves[position]? = some node) : node.column = position := by
  have column : (schema.leaves.map (·.column))[position]? = some node.column := by
    rw [List.getElem?_map, found, Option.map_some]
  rw [leaves_eq, Field.map_column_leavesAll] at column
  obtain ⟨inside, same⟩ := List.getElem?_eq_some_iff.mp column
  rw [← same, List.getElem_range']
  omega

theorem leaves_getElem?_column {schema : Schema} {node : Node} (member : node ∈ schema.leaves) :
    schema.leaves[node.column]? = some node := by
  obtain ⟨position, found⟩ := List.getElem?_of_mem member
  rw [column_of_leaves_getElem? found]
  exact found

theorem leafIds_getElem?_eq_some_iff {schema : Schema} {position : Nat} {id : FieldId} :
    schema.leafIds[position]? = some id ↔
      ∃ leaf, schema.leaves[position]? = some leaf ∧ leaf.id = id := by
  rw [leafIds, List.getElem?_map, Option.map_eq_some_iff]

/-- A column belongs to one leaf. -/
theorem eq_of_column_eq {schema : Schema} {leaf other : Node} (member : leaf ∈ schema.leaves)
    (listed : other ∈ schema.leaves) (same : other.column = leaf.column) : other = leaf := by
  have found := leaves_getElem?_column listed
  rw [same, leaves_getElem?_column member] at found
  exact (Option.some.inj found).symm

end Schema

end NestedColumns
