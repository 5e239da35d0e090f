/-
Fields that lie above others.

A field lies strictly above another exactly if its path is the beginning of the way to the parent of
the other (`IsAccepted.isAncestor?_eq_true_iff`). So the fields strictly above two others are those on
what the ways to their parents share, and the last of these is the deepest of them
(`IsAccepted.isDeepestAbove`).

A schema has two measures of what two fields share: their common ancestor, and the repetition level of
the whole part that their paths share. `IsAccepted.ancestorLaws` lists the laws of both. For leaves they
come to the same level, since the paths of two leaves part (`IsAccepted.ancestorRepetition?_id`).
-/

import NestedColumns.Proofs.Schema.Sharing

namespace NestedColumns.Schema

/-- **The deepest field strictly above two others**: it lies above both, and every other one that does
lies above it. If there is no such field then only the root lies above both. -/
def IsDeepestAbove (schema : Schema) (a b : FieldId) : Option FieldId → Prop
  | some ancestor => ancestor ≠ rootId ∧
      schema.isAncestor? ancestor a = some true ∧ schema.isAncestor? ancestor b = some true ∧
      ∀ other, other ≠ ancestor → schema.isAncestor? other a = some true →
        schema.isAncestor? other b = some true → schema.isAncestor? other ancestor = some true
  | none => ∀ other, schema.isAncestor? other a = some true →
      schema.isAncestor? other b = some true → other = rootId

/-- The repetition level of the common ancestor of two fields, 0 if that is the root. -/
def ancestorRepetition? (schema : Schema) (a b : FieldId) : Option Level := do
  match ← schema.commonAncestor? a b with
  | some ancestor => schema.maxRepetition? ancestor
  | none => return 0

/-- **The laws of what two fields share.** -/
structure AncestorLaws (schema : Schema) : Prop where
  ancestor_comm : ∀ a b, schema.commonAncestor? a b = schema.commonAncestor? b a
  repetition_comm : ∀ a b, schema.commonRepetition? a b = schema.commonRepetition? b a
  /-- The common ancestor of two different fields is the deepest one strictly above both. -/
  deepest : ∀ a b, schema.contains a = true → schema.contains b = true → a ≠ rootId → b ≠ rootId →
    a ≠ b → ∃ ancestor, schema.commonAncestor? a b = some ancestor ∧
      schema.IsDeepestAbove a b ancestor
  /-- Two different leaves share the repetition level of their common ancestor. -/
  repetition_eq : ∀ a ∈ schema.leafIds, ∀ b ∈ schema.leafIds, a ≠ b → ∃ level,
    schema.commonRepetition? a b = some level ∧ schema.ancestorRepetition? a b = some level
  /-- Of three leaves in order, the outer two share the lesser of the levels that neighbours share. -/
  least : ∀ (i j k : Nat) (a b c : FieldId), i ≤ j → j ≤ k → schema.leafIds[i]? = some a →
    schema.leafIds[j]? = some b → schema.leafIds[k]? = some c → ∃ first second,
      schema.commonRepetition? a b = some first ∧ schema.commonRepetition? b c = some second ∧
      schema.commonRepetition? a c = some (min first second)

variable {schema : Schema} {a b c node : Node} {id : FieldId} {path : Path}

/-- A number that is known is that of a node. -/
theorem exists_mem_nodes_of_contains (known : schema.contains id = true) :
    ∃ node ∈ schema.nodes, node.id = id := by
  obtain ⟨node, found⟩ := Option.isSome_iff_exists.mp known
  exact ⟨node, mem_nodes_of_node? found⟩

/-- What lies strictly above a field is a node. -/
theorem exists_mem_nodes_of_isAncestor? {below : FieldId}
    (above : schema.isAncestor? id below = some true) : ∃ node ∈ schema.nodes, node.id = id := by
  unfold isAncestor? at above
  by_cases same : id = below
  · rw [if_pos same] at above
    cases above
  by_cases top : id = rootId
  · exact ⟨schema.root, List.mem_cons_self, top.symm⟩
  rw [if_neg same, if_neg top, ancestry?, Option.map_map, Option.map_eq_some_iff] at above
  obtain ⟨node, found, listed⟩ := above
  obtain ⟨label, onPath, rfl⟩ := List.mem_map.mp (List.contains_iff_mem.mp listed)
  exact List.mem_map.mp (mem_ids_of_mem_path (mem_nodes_of_node? found).1 onPath)

/-- A path that begins that of a node is empty or ends with a node. -/
theorem eq_nil_or_exists_mem_nodes (member : node ∈ schema.nodes) (leads : path <+: node.path) :
    path = [] ∨ ∃ above ∈ schema.nodes, above.path = path ∧
      path.getLast?.map (·.id) = some above.id := by
  obtain ⟨above, among, rfl⟩ := Field.exists_mem_walk_of_isPrefix member List.nil_prefix leads
  by_cases root : above.path = []
  · exact .inl root
  · refine .inr ⟨above, among, rfl, ?_⟩
    rw [getLast?_path_of_mem_nodes among root]
    rfl

namespace IsAccepted

variable (accepted : schema.IsAccepted)

include accepted

/-! ### Strictly above -/

/-- A node whose path begins that of another is this other node or stands on the way to its parent. -/
theorem isPrefix_path_iff (first : a ∈ schema.nodes) (second : b ∈ schema.nodes) (field : b.path ≠ []) :
    a.path <+: b.path ↔ a.id = b.id ∨ a.path <+: b.path.dropLast := by
  conv_lhs => rw [← List.dropLast_concat_getLast field]
  rw [List.prefix_concat_iff, List.dropLast_concat_getLast field]
  refine or_congr_left ⟨fun same => ?_, fun same => ?_⟩
  · rw [accepted.eq_of_path_eq first second same]
  · rw [accepted.eq_of_id_eq first second same]

/-- **A field lies strictly above another** if its path begins the way to the parent of the other. -/
theorem isAncestor?_eq_true_iff (first : a ∈ schema.nodes) (second : b ∈ schema.nodes)
    (field : b.path ≠ []) :
    schema.isAncestor? a.id b.id = some true ↔ a.path <+: b.path.dropLast := by
  unfold isAncestor?
  by_cases same : a.id = b.id
  · rw [if_pos same, accepted.eq_of_id_eq first second same]
    refine iff_of_false (by simp) fun leads => ?_
    have shorter := leads.length_le
    have some := List.length_pos_of_ne_nil field
    rw [List.length_dropLast] at shorter
    omega
  rw [if_neg same]
  by_cases top : a.id = rootId
  · rw [if_pos top, accepted.eq_of_id_eq first List.mem_cons_self top]
    exact iff_of_true rfl List.nil_prefix
  rw [if_neg top, ancestry?, accepted.node?_id second, Option.map_some, Option.map_some,
    Option.some_inj, List.contains_iff_mem, Node.ancestry,
    accepted.id_mem_ids_iff first second ((accepted.path_ne_nil_iff first).mpr top),
    accepted.isPrefix_path_iff first second field, or_iff_right same]

/-! ### The common ancestor -/

theorem commonAncestorPath_comm (first : a ∈ schema.nodes) (second : b ∈ schema.nodes) :
    a.commonAncestorPath b = b.commonAncestorPath a := by
  by_cases same : a.id = b.id
  · rw [accepted.eq_of_id_eq first second same]
  unfold Node.commonAncestorPath
  rw [if_neg same, if_neg (Ne.symm same)]
  exact Path.shared_comm fun x inFirst y inSecond => accepted.label_eq first second x
    (List.dropLast_subset _ inFirst) y (List.dropLast_subset _ inSecond)

theorem commonAncestor?_id (first : a ∈ schema.nodes) (second : b ∈ schema.nodes)
    (field : a.id ≠ rootId) (field' : b.id ≠ rootId) :
    schema.commonAncestor? a.id b.id = some ((a.commonAncestorPath b).getLast?.map (·.id)) := by
  unfold commonAncestor?
  rw [if_neg (not_or.mpr ⟨field, field'⟩), accepted.node?_id first, accepted.node?_id second]
  rfl

/-- **The common ancestor of two different fields** is the deepest one strictly above both. -/
theorem isDeepestAbove (first : a ∈ schema.nodes) (second : b ∈ schema.nodes) (field : a.path ≠ [])
    (field' : b.path ≠ []) (apart : a.id ≠ b.id) :
    schema.IsDeepestAbove a.id b.id ((a.commonAncestorPath b).getLast?.map (·.id)) := by
  have shared : a.commonAncestorPath b = Path.shared a.path.dropLast b.path.dropLast :=
    if_neg apart
  have left : a.commonAncestorPath b <+: a.path.dropLast := shared ▸ Path.shared_isPrefix_left _ _
  have right : a.commonAncestorPath b <+: b.path.dropLast := by
    rw [accepted.commonAncestorPath_comm first second, Node.commonAncestorPath, if_neg apart.symm]
    exact Path.shared_isPrefix_left _ _
  -- whatever lies above both stands on the path that is shared
  have others : ∀ other, schema.isAncestor? other a.id = some true →
      schema.isAncestor? other b.id = some true →
      ∃ node ∈ schema.nodes, node.id = other ∧ node.path <+: a.commonAncestorPath b := by
    intro other aboveFirst aboveSecond
    obtain ⟨node, member, rfl⟩ := exists_mem_nodes_of_isAncestor? aboveFirst
    refine ⟨node, member, rfl, shared ▸ Path.isPrefix_shared ?_ ?_⟩
    · exact (accepted.isAncestor?_eq_true_iff member first field).mp aboveFirst
    · exact (accepted.isAncestor?_eq_true_iff member second field').mp aboveSecond
  obtain root | ⟨above, among, ends, last⟩ :=
    eq_nil_or_exists_mem_nodes first (left.trans (List.dropLast_prefix _))
  · rw [root] at others ⊢
    intro other aboveFirst aboveSecond
    obtain ⟨node, member, rfl, leads⟩ := others other aboveFirst aboveSecond
    by_contra some
    exact (accepted.path_ne_nil_iff member).mpr some (List.prefix_nil.mp leads)
  · rw [last]
    rw [← ends] at left right others last
    have some : above.path ≠ [] := by
      intro none
      rw [none] at last
      cases last
    refine ⟨(accepted.path_ne_nil_iff among).mp some,
      (accepted.isAncestor?_eq_true_iff among first field).mpr left,
      (accepted.isAncestor?_eq_true_iff among second field').mpr right, ?_⟩
    intro other differs aboveFirst aboveSecond
    obtain ⟨node, member, rfl, leads⟩ := others other aboveFirst aboveSecond
    rw [accepted.isPrefix_path_iff member among some, or_iff_right differs] at leads
    exact (accepted.isAncestor?_eq_true_iff member among some).mpr leads

/-! ### Levels -/

/-- The common ancestor of two different leaves ends what their whole paths share. -/
theorem commonAncestor?_leaves (first : a ∈ schema.leaves) (second : b ∈ schema.leaves)
    (apart : a.id ≠ b.id) : schema.commonAncestor? a.id b.id =
      some ((Path.shared a.path b.path).getLast?.map (·.id)) := by
  have among : a ∈ schema.nodes := List.mem_of_mem_filter first
  have among' : b ∈ schema.nodes := List.mem_of_mem_filter second
  have distinct : a.column ≠ b.column := fun same =>
    apart (congrArg Node.id (eq_of_column_eq second first same))
  have parted : ∃ above x y, above ++ [x] <+: a.path ∧ above ++ [y] <+: b.path ∧ x.id ≠ y.id :=
    Field.exists_parted_of_mem_leaves accepted.wellFormed first second distinct
  obtain ⟨above, x, y, leads, leads', differ⟩ := parted
  rw [accepted.commonAncestor?_id among among'
      ((accepted.path_ne_nil_iff among).mp (path_ne_nil_of_mem_leaves first))
      ((accepted.path_ne_nil_iff among').mp (path_ne_nil_of_mem_leaves second)),
    Node.commonAncestorPath_of_parted leads leads' differ apart,
    Path.shared_eq_of_parted leads leads' differ]

/-- **Two different leaves share the level of their common ancestor.** -/
theorem ancestorRepetition?_id (first : a ∈ schema.leaves) (second : b ∈ schema.leaves)
    (apart : a.id ≠ b.id) :
    schema.ancestorRepetition? a.id b.id = some (a.commonRepetition b) := by
  have among : a ∈ schema.nodes := List.mem_of_mem_filter first
  unfold ancestorRepetition? Node.commonRepetition
  rw [accepted.commonAncestor?_leaves first second apart]
  obtain none | ⟨ancestor, member, ends, last⟩ :=
    eq_nil_or_exists_mem_nodes among (Path.shared_isPrefix_left a.path b.path)
  · rw [none]
    rfl
  · rw [last, ← ends]
    show schema.maxRepetition? ancestor.id = _
    rw [maxRepetition?, accepted.node?_id member]
    rfl

/-- The least-level law, also for leaves that stand at the same position. -/
theorem commonRepetition_leaves_eq_min {i j k : Nat} (before : i ≤ j) (behind : j ≤ k)
    (first : schema.leaves[i]? = some a) (second : schema.leaves[j]? = some b)
    (third : schema.leaves[k]? = some c) :
    a.commonRepetition c = min (a.commonRepetition b) (b.commonRepetition c) := by
  have among : ∀ {position : Nat} {leaf : Node}, schema.leaves[position]? = some leaf →
      leaf ∈ schema.nodes := fun found => List.mem_of_mem_filter (List.mem_of_getElem? found)
  rcases Nat.lt_or_eq_of_le before with before | rfl
  · rcases Nat.lt_or_eq_of_le behind with behind | rfl
    · have least : schema.leaves.Triplewise Node.LeastLevel :=
        Field.triplewise_commonRepetition_leaves accepted.wellFormed
      obtain ⟨_, rfl⟩ := List.getElem?_eq_some_iff.mp first
      obtain ⟨_, rfl⟩ := List.getElem?_eq_some_iff.mp second
      obtain ⟨inside, rfl⟩ := List.getElem?_eq_some_iff.mp third
      exact List.triplewise_iff_getElem.mp least i j k before behind inside
    · obtain rfl := Option.some.inj (second.symm.trans third)
      have within := Node.commonRepetition_le_maxRepetition b a
      rw [Node.commonRepetition_self, accepted.commonRepetition_comm (among first) (among second),
        min_eq_left within]
  · obtain rfl := Option.some.inj (first.symm.trans second)
    rw [Node.commonRepetition_self, min_eq_right (Node.commonRepetition_le_maxRepetition a c)]

/-! ### The laws -/

theorem commonAncestor?_comm (x y : FieldId) :
    schema.commonAncestor? x y = schema.commonAncestor? y x := by
  unfold commonAncestor?
  by_cases root : x = rootId ∨ y = rootId
  · rw [if_pos root, if_pos root.symm]
  rw [if_neg root, if_neg (mt Or.symm root)]
  cases first : schema.node? x with
  | none => cases schema.node? y <;> rfl
  | some a =>
    cases second : schema.node? y with
    | none => rfl
    | some b =>
      show some ((a.commonAncestorPath b).getLast?.map _) = some ((b.commonAncestorPath a).getLast?.map _)
      rw [accepted.commonAncestorPath_comm (mem_nodes_of_node? first).1 (mem_nodes_of_node? second).1]

theorem commonRepetition?_comm (x y : FieldId) :
    schema.commonRepetition? x y = schema.commonRepetition? y x := by
  unfold commonRepetition?
  cases first : schema.node? x with
  | none => cases schema.node? y <;> rfl
  | some a =>
    cases second : schema.node? y with
    | none => rfl
    | some b =>
      show some (a.commonRepetition b) = some (b.commonRepetition a)
      rw [accepted.commonRepetition_comm (mem_nodes_of_node? first).1 (mem_nodes_of_node? second).1]

/-- **The laws of what two fields share** hold in every schema that is accepted, however its fields are
numbered. -/
theorem ancestorLaws : schema.AncestorLaws where
  ancestor_comm := accepted.commonAncestor?_comm
  repetition_comm := accepted.commonRepetition?_comm
  deepest := by
    intro x y known known' field field' apart
    obtain ⟨a, first, rfl⟩ := exists_mem_nodes_of_contains known
    obtain ⟨b, second, rfl⟩ := exists_mem_nodes_of_contains known'
    refine ⟨_, accepted.commonAncestor?_id first second field field', ?_⟩
    exact accepted.isDeepestAbove first second ((accepted.path_ne_nil_iff first).mpr field)
      ((accepted.path_ne_nil_iff second).mpr field') apart
  repetition_eq := by
    intro x listed y listed' apart
    obtain ⟨a, first, rfl⟩ := List.mem_map.mp listed
    obtain ⟨b, second, rfl⟩ := List.mem_map.mp listed'
    refine ⟨_, ?_, accepted.ancestorRepetition?_id first second apart⟩
    exact accepted.commonRepetition?_id (List.mem_of_mem_filter first) (List.mem_of_mem_filter second)
  least := by
    intro i j k x y z before behind found found' found''
    obtain ⟨a, first, rfl⟩ := leafIds_getElem?_eq_some_iff.mp found
    obtain ⟨b, second, rfl⟩ := leafIds_getElem?_eq_some_iff.mp found'
    obtain ⟨c, third, rfl⟩ := leafIds_getElem?_eq_some_iff.mp found''
    have among : ∀ {position : Nat} {leaf : Node}, schema.leaves[position]? = some leaf →
        leaf ∈ schema.nodes := fun found => List.mem_of_mem_filter (List.mem_of_getElem? found)
    refine ⟨_, _, accepted.commonRepetition?_id (among first) (among second),
      accepted.commonRepetition?_id (among second) (among third), ?_⟩
    rw [accepted.commonRepetition?_id (among first) (among third),
      accepted.commonRepetition_leaves_eq_min before behind first second third]

end IsAccepted

/-- The country of a language and the link of a name have the name as their common ancestor. -/
theorem ancestorLaws_documentType :
    Sample.documentType.IsAccepted ∧ Sample.documentType.commonAncestor? 8 9 = some (some 5) ∧
      Sample.documentType.AncestorLaws :=
  ⟨Sample.documentType_isAccepted, rfl, Sample.documentType_isAccepted.ancestorLaws⟩

end NestedColumns.Schema
