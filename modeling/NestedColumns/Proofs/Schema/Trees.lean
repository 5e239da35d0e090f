/-
Which lists of nodes are accepted.

A parent-linked list is accepted exactly if it is a tree of well-named fields (`Schema.IsTree`) that
is not too long and not too deep (`Schema.accepts_iff`). The tree is grown from the root down and
only meets entries that lead up to the root, whatever the order of the list and wherever its links
run in circles; so the two directions are

* `Describes.exists_grow` — every entry that leads up to the root has been met, with its names and
  children checked, and has had room;
* `IsTree.exists_grow` — if nothing is wrong with any entry, the growing comes to an end, since every
  level uses up room and no entry stands deeper than there is room; and then every entry has been met
  (`exists_mem_nodes`).
-/

import NestedColumns.Proofs.Schema.Accepted

namespace NestedColumns.Schema

/-- An entry leads up to the first one in so many steps, each from an entry to its parent. -/
inductive HasDepth (entries : List NodeEntry) : FieldId → Nat → Prop
  | root : HasDepth entries rootId 0
  | child {id parent : FieldId} {entry : NodeEntry} {depth : Nat}
      (listed : entries[id]? = some entry) (linked : entry.parent = some parent)
      (above : HasDepth entries parent depth) : HasDepth entries id (depth + 1)

/-- The entries from a top-level one down to the given one, each the parent of the next; the first
entry of the list has none. -/
inductive ParentChain (entries : List NodeEntry) : FieldId → List FieldId → Prop
  | root : ParentChain entries rootId []
  | child {id parent : FieldId} {entry : NodeEntry} {chain : List FieldId}
      (listed : entries[id]? = some entry) (linked : entry.parent = some parent)
      (above : ParentChain entries parent chain) : ParentChain entries id (chain ++ [id])

/-- **A parent-linked list that is a tree of well-named fields.** -/
structure IsTree (entries : List NodeEntry) : Prop where
  /-- The first entry is a root: a group without a parent. -/
  root : ∃ root, entries[rootId]? = some root ∧ root.parent = none ∧ root.type = none
  /-- Every other entry has a parent in the list. -/
  linked : ∀ id entry, id ≠ rootId → entries[id]? = some entry →
    ∃ parent, entry.parent = some parent ∧ parent < entries.length
  /-- Every entry leads up to the root. -/
  reaches : ∀ id < entries.length, ∃ depth, HasDepth entries id depth
  /-- The entries with a scalar type are those without children. -/
  leaf_iff : ∀ id entry, entries[id]? = some entry →
    (entry.type.isSome ↔ ∀ child ∈ entries, child.parent ≠ some id)
  /-- Every field has a name: a word without a dot. -/
  named : ∀ id entry, id ≠ rootId → entries[id]? = some entry → IsFieldName entry.name
  /-- Siblings have different names. -/
  distinct : ∀ (a b parent : FieldId) (first second : NodeEntry), a ≠ b →
    entries[a]? = some first → entries[b]? = some second →
    first.parent = some parent → second.parent = some parent → first.name ≠ second.name

variable {root entry : NodeEntry} {rest : List NodeEntry} {schema : Schema} {id parent : FieldId}
  {depth : Nat}

/-! ### Entries and their numbers -/

theorem mem_zipIdx_iff (root : NodeEntry) :
    (entry, id) ∈ rest.zipIdx 1 ↔ id ≠ rootId ∧ (root :: rest)[id]? = some entry := by
  rw [List.mk_mem_zipIdx_iff_le_and_getElem?_sub]
  cases id with
  | zero => simp [rootId]
  | succ id => simp [rootId]

theorem mem_childEntries_iff (root : NodeEntry) :
    (entry, id) ∈ childEntries (rest.zipIdx 1) parent ↔
      (id ≠ rootId ∧ (root :: rest)[id]? = some entry) ∧ entry.parent = some parent := by
  unfold childEntries
  rw [List.mem_filter, mem_zipIdx_iff root, decide_eq_true_iff]

/-- An entry with a parent is not the first one. -/
theorem ne_rootId_of_linked (parentless : root.parent = none)
    (listed : (root :: rest)[id]? = some entry)
    (linked : entry.parent = some parent) : id ≠ rootId := by
  rintro rfl
  obtain rfl : root = entry := Option.some.inj listed
  rw [parentless] at linked
  cases linked

/-- No entry that leads up to the root is its own parent. -/
theorem HasDepth.ne_parent {entries : List NodeEntry} (leads : HasDepth entries id depth)
    (field : id ≠ rootId) (listed : entries[id]? = some entry) : entry.parent ≠ some id := by
  intro linked
  induction leads with
  | root => exact field rfl
  | child listed' linked' _ ih =>
    obtain rfl := Option.some.inj (listed.symm.trans listed')
    obtain rfl := Option.some.inj (linked.symm.trans linked')
    exact ih field listed linked

/-- The numbers of a chain of parents from the root on are those that lead down to its last one. -/
theorem parentChain_of_isChain {ids : List FieldId}
    (chain : (rootId :: ids).IsChain (IsParent (rest.zipIdx 1)))
    (last : (rootId :: ids).getLast? = some id) : ParentChain (root :: rest) id ids := by
  induction ids using List.reverseRecOn generalizing id with
  | nil =>
    obtain rfl : rootId = id := Option.some.inj last
    exact .root
  | append_singleton ids number ih =>
    rw [← List.cons_append, List.getLast?_concat] at last
    obtain rfl : number = id := Option.some.inj last
    obtain ⟨before, parent, above, entry, member, linked⟩ := isParent_of_isChain chain
    exact .child ((mem_zipIdx_iff root).mp member).2 linked (ih before above)

theorem ParentChain.hasDepth {entries : List NodeEntry} {chain : List FieldId}
    (leads : ParentChain entries id chain) : HasDepth entries id chain.length := by
  induction leads with
  | root => exact .root
  | child listed linked _ ih =>
    rw [List.length_append]
    exact .child listed linked ih

/-! ### Accepted lists are trees -/

/-- Every entry that leads up to the root has grown, in the room that its depth leaves. -/
theorem Describes.exists_grow (describes : Describes root rest schema)
    (leads : HasDepth (root :: rest) id depth) :
    ∃ entry room fields, (root :: rest)[id]? = some entry ∧ depth + room = maxDepth ∧
      grow (rest.zipIdx 1) (room + 1) entry id = .ok fields := by
  induction leads with
  | root => exact ⟨root, maxDepth, schema.fields, rfl, Nat.zero_add _, describes.fields⟩
  | @child id parent entry depth listed linked above ih =>
    obtain ⟨parentEntry, room, fields, _, depths, grown⟩ := ih
    have field := ne_rootId_of_linked describes.parentless listed linked
    obtain ⟨children, checked, made⟩ := grow_succ_eq_ok.mp grown
    have among : (entry, id) ∈ children := by
      rw [(checkedChildren_eq_ok.mp checked).1]
      exact (mem_childEntries_iff root).mpr ⟨⟨field, listed⟩, linked⟩
    obtain ⟨_, _, below, grown, _⟩ := exists_of_mem_of_forall₂ made among
    cases room with
    | zero => exact absurd grown grow_zero_ne_ok
    | succ room => exact ⟨entry, room, below, listed, by omega, grown⟩

theorem Describes.exists_hasDepth (describes : Describes root rest schema)
    (inside : id < (root :: rest).length) : ∃ depth, HasDepth (root :: rest) id depth := by
  by_cases top : id = rootId
  · exact ⟨0, top ▸ .root⟩
  · have member := (mem_zipIdx_iff root).mpr ⟨top, List.getElem?_eq_getElem inside⟩
    obtain ⟨node, among, same⟩ := List.mem_map.mp (describes.reached _ member)
    obtain ⟨chain, last⟩ := isChain_of_mem_nodes describes.grown among
    exact ⟨_, (parentChain_of_isChain chain (last.trans (congrArg some same))).hasDepth⟩

theorem Describes.exists_parent (describes : Describes root rest schema) (field : id ≠ rootId)
    (listed : (root :: rest)[id]? = some entry) :
    ∃ parent, entry.parent = some parent ∧ parent < (root :: rest).length := by
  obtain ⟨parent, linked, inside, _⟩ :=
    describes.parents _ ((mem_zipIdx_iff root).mpr ⟨field, listed⟩)
  exact ⟨parent, linked, inside⟩

/-- What has been checked of the children of an entry. -/
theorem Describes.checked (describes : Describes root rest schema)
    (listed : (root :: rest)[id]? = some entry) :
    checkedChildren (rest.zipIdx 1) entry id = .ok (childEntries (rest.zipIdx 1) id) := by
  obtain ⟨inside, _⟩ := List.getElem?_eq_some_iff.mp listed
  obtain ⟨depth, leads⟩ := describes.exists_hasDepth inside
  obtain ⟨same, room, fields, found, _, grown⟩ := describes.exists_grow leads
  obtain rfl := Option.some.inj (listed.symm.trans found)
  obtain ⟨children, checked, _⟩ := grow_succ_eq_ok.mp grown
  rw [checked, (checkedChildren_eq_ok.mp checked).1]

theorem childEntries_ne_nil_iff (parentless : root.parent = none) :
    childEntries (rest.zipIdx 1) id ≠ [] ↔ ∃ child ∈ root :: rest, child.parent = some id := by
  constructor
  · intro some
    obtain ⟨⟨child, number⟩, among⟩ := List.exists_mem_of_ne_nil _ some
    obtain ⟨⟨_, listed⟩, linked⟩ := (mem_childEntries_iff root).mp among
    exact ⟨child, List.mem_of_getElem? listed, linked⟩
  · rintro ⟨child, among, linked⟩
    obtain ⟨number, listed⟩ := List.getElem?_of_mem among
    have field := ne_rootId_of_linked parentless listed linked
    exact List.ne_nil_of_mem ((mem_childEntries_iff root).mpr ⟨⟨field, listed⟩, linked⟩)

theorem Describes.isTree (describes : Describes root rest schema) : IsTree (root :: rest) where
  root := ⟨root, rfl, describes.parentless, describes.untyped⟩
  linked := by
    intro id entry field listed
    exact describes.exists_parent field listed
  reaches := fun id inside => describes.exists_hasDepth inside
  leaf_iff := by
    intro id entry listed
    have shape := (checkedChildren_eq_ok.mp (describes.checked listed)).2.2.2
    rw [childEntries_ne_nil_iff describes.parentless] at shape
    rw [← Option.ne_none_iff_isSome, ne_eq, shape]
    simp
  named := by
    intro id entry field listed
    obtain ⟨parent, linked, inside⟩ := describes.exists_parent field listed
    have above := describes.checked (List.getElem?_eq_getElem inside)
    refine (checkedChildren_eq_ok.mp above).2.1 _ (List.mem_map_of_mem (a := (entry, id)) ?_)
    exact (mem_childEntries_iff root).mpr ⟨⟨field, listed⟩, linked⟩
  distinct := by
    intro a b parent first second differ atA atB linkedA linkedB same
    have fieldA := ne_rootId_of_linked describes.parentless atA linkedA
    have fieldB := ne_rootId_of_linked describes.parentless atB linkedB
    have memberA := (mem_childEntries_iff root).mpr ⟨⟨fieldA, atA⟩, linkedA⟩
    have memberB := (mem_childEntries_iff root).mpr ⟨⟨fieldB, atB⟩, linkedB⟩
    obtain ⟨other, linked, inside⟩ := describes.exists_parent fieldA atA
    obtain rfl := Option.some.inj (linkedA.symm.trans linked)
    have above := describes.checked (List.getElem?_eq_getElem inside)
    have names := (checkedChildren_eq_ok.mp above).2.2.1
    exact differ (congrArg Prod.snd (List.inj_on_of_nodup_map names memberA memberB same))

/-! ### Trees are accepted -/

theorem IsTree.checked (tree : IsTree (root :: rest)) (listed : (root :: rest)[id]? = some entry) :
    checkedChildren (rest.zipIdx 1) entry id = .ok (childEntries (rest.zipIdx 1) id) := by
  obtain ⟨top, atRoot, parentless, _⟩ := tree.root
  obtain rfl : root = top := Option.some.inj atRoot
  refine checkedChildren_eq_ok.mpr ⟨rfl, ?_, ?_, ?_⟩
  · intro name member
    obtain ⟨⟨child, number⟩, among, rfl⟩ := List.mem_map.mp member
    obtain ⟨⟨field, found⟩, _⟩ := (mem_childEntries_iff root).mp among
    exact tree.named number child field found
  · have numbers : (childEntries (rest.zipIdx 1) id).Pairwise fun a b => a.2 ≠ b.2 :=
      (List.pairwise_map.mp (numbered_zipIdx rest).nodup).filter _
    rw [List.Nodup, List.pairwise_map]
    refine numbers.imp_of_mem fun memberA memberB differ => ?_
    obtain ⟨⟨_, atA⟩, linkedA⟩ := (mem_childEntries_iff root).mp memberA
    obtain ⟨⟨_, atB⟩, linkedB⟩ := (mem_childEntries_iff root).mp memberB
    exact tree.distinct _ _ id _ _ differ atA atB linkedA linkedB
  · rw [childEntries_ne_nil_iff parentless, ← Option.not_isSome_iff_eq_none,
      tree.leaf_iff id entry listed]
    simp only [ne_eq, not_forall, not_not, exists_prop]

/-- **The growing of a tree ends**, since there is room for every level. -/
theorem IsTree.exists_grow (tree : IsTree (root :: rest))
    (shallow : ∀ id depth, HasDepth (root :: rest) id depth → depth ≤ maxDepth) {room : Nat}
    (depths : depth + room = maxDepth + 1) (leads : HasDepth (root :: rest) id depth)
    (listed : (root :: rest)[id]? = some entry) :
    ∃ fields, grow (rest.zipIdx 1) room entry id = .ok fields := by
  induction room generalizing depth id entry with
  | zero =>
    have within := shallow id depth leads
    omega
  | succ room ih =>
    have each : ∀ child ∈ childEntries (rest.zipIdx 1) id, ∃ field below,
        grow (rest.zipIdx 1) room child.1 child.2 = .ok below ∧
          fieldOfEntry child.1 child.2 below = field := by
      rintro ⟨child, number⟩ among
      obtain ⟨⟨_, found⟩, linked⟩ := (mem_childEntries_iff root).mp among
      obtain ⟨below, grown⟩ := ih (by omega) (.child found linked leads) found
      exact ⟨_, below, grown, rfl⟩
    obtain ⟨fields, made⟩ := exists_forall₂ each
    exact ⟨fields, grow_succ_eq_ok.mpr ⟨_, tree.checked listed, made⟩⟩

/-- **Every entry that leads up to the root is a node of the tree.** -/
theorem exists_mem_nodes (grown : Grown (rest.zipIdx 1) root rootId schema.fields)
    (parentless : root.parent = none) (leads : HasDepth (root :: rest) id depth) :
    ∃ node ∈ schema.nodes, node.id = id ∧ ∃ entry, (root :: rest)[id]? = some entry ∧
      Grown (rest.zipIdx 1) entry id node.field.children := by
  induction leads with
  | root => exact ⟨schema.root, List.mem_cons_self, rfl, root, rfl, grown⟩
  | @child id parent entry depth listed linked above ih =>
    obtain ⟨node, member, _, _, _, grown⟩ := ih
    have field := ne_rootId_of_linked parentless listed linked
    obtain ⟨fields, children⟩ : ∃ fields, node.field.children = fields := ⟨_, rfl⟩
    rw [children] at grown
    cases grown with
    | @node _ _ entries inside checked each =>
      have among : (entry, id) ∈ entries := by
        rw [(checkedChildren_eq_ok.mp checked).1]
        exact (mem_childEntries_iff root).mpr ⟨⟨field, listed⟩, linked⟩
      have grown := each _ among
      obtain ⟨child, below, same⟩ : ∃ child ∈
          Field.walkAll node.path node.column node.field.children,
          child.field = fieldOfEntry entry id (inside (entry, id)) := by
        rw [children]
        exact Field.exists_mem_walkAll (List.mem_map_of_mem among)
      have listed' := Field.subtree_subset_walk member (node.walkAll_children_subset below)
      refine ⟨child, listed', ?_, entry, listed, ?_⟩
      · rw [Node.id, Node.label, same, label_fieldOfEntry]
      · rw [same, grown.children_fieldOfEntry]
        exact grown

theorem IsTree.exists_describes (tree : IsTree (root :: rest))
    (short : (root :: rest).length < UInt32.size)
    (shallow : ∀ id depth, HasDepth (root :: rest) id depth → depth ≤ maxDepth) :
    ∃ schema, Describes root rest schema := by
  obtain ⟨top, atRoot, parentless, untyped⟩ := tree.root
  obtain rfl : root = top := Option.some.inj atRoot
  obtain ⟨fields, grown⟩ := tree.exists_grow shallow (Nat.zero_add _) .root rfl
  refine ⟨⟨root.name, fields⟩, parentless, untyped, short, ?_, rfl, grown, ?_⟩
  · rintro ⟨entry, id⟩ member
    obtain ⟨field, listed⟩ := (mem_zipIdx_iff root).mp member
    obtain ⟨parent, linked, inside⟩ := tree.linked id entry field listed
    refine ⟨parent, linked, inside, fun own => ?_⟩
    obtain ⟨depth, leads⟩ := tree.reaches id (List.getElem?_eq_some_iff.mp listed).1
    exact leads.ne_parent field listed (linked.trans (congrArg some own))
  · rintro ⟨entry, id⟩ member
    obtain ⟨_, listed⟩ := (mem_zipIdx_iff root).mp member
    obtain ⟨depth, leads⟩ := tree.reaches id (List.getElem?_eq_some_iff.mp listed).1
    have grown : Grown (rest.zipIdx 1) root rootId (Schema.mk root.name fields).fields :=
      grown_of_grow grown
    obtain ⟨node, among, same, _⟩ := exists_mem_nodes grown parentless leads
    exact List.mem_map.mpr ⟨node, among, same⟩

/-! ### Acceptance -/

/-- **A list of nodes is accepted exactly if it is a tree of well-named fields** of which the numbers
have 32 bits and the depths 16. Any other list is refused as badly configured. -/
theorem accepts_iff (entries : List NodeEntry) :
    ((∃ schema, ofEntries entries = .ok schema) ↔
      IsTree entries ∧ entries.length < UInt32.size ∧
        ∀ id depth, HasDepth entries id depth → depth < UInt16.size) ∧
    ((∃ schema, ofEntries entries = .ok schema) ∨
      ∃ reason, ofEntries entries = .error (.configuration reason)) := by
  constructor
  · constructor
    · rintro ⟨schema, accepted⟩
      obtain ⟨root, rest, rfl, describes⟩ := ofEntries_eq_ok.mp accepted
      refine ⟨describes.isTree, describes.count, fun id depth leads => ?_⟩
      obtain ⟨_, room, _, _, depths, _⟩ := describes.exists_grow leads
      exact Nat.lt_succ_of_le (Nat.le_of_add_right_le depths.le)
    · rintro ⟨tree, short, shallow⟩
      obtain ⟨root, rest, rfl⟩ : ∃ root rest, entries = root :: rest := by
        obtain ⟨root, atRoot, _⟩ := tree.root
        exact List.exists_cons_of_ne_nil (List.ne_nil_of_mem (List.mem_of_getElem? atRoot))
      obtain ⟨schema, describes⟩ := tree.exists_describes short fun id depth leads =>
        Nat.le_of_lt_succ (shallow id depth leads)
      exact ⟨schema, ofEntries_eq_ok.mpr ⟨root, rest, rfl, describes⟩⟩
  · unfold ofEntries
    cases ofEntries? entries with
    | ok schema => exact .inl ⟨schema, rfl⟩
    | error reason => exact .inr ⟨reason, rfl⟩

end NestedColumns.Schema
