/-
What a schema derives from the links of its list.

A parent-linked list may name parents before or after their children. In whatever order it stands,
what its schema tells of a node is what the links say of it (`derived_of_links`):

* `DerivedAt` — the numbers on the path of a node are the chain of its parents; its levels count
  entries on this chain, the owner of a level is the repeated one of that number, and its children
  are the entries that name it as their parent, in the order of the list;
* `DerivedLeaves` — the leaves are the entries with a scalar type, each once, as they are met depth
  first from the root down.
-/

import NestedColumns.Proofs.Machine.Targets
import NestedColumns.Proofs.Schema.Entries
import NestedColumns.Proofs.Schema.Owner
import NestedColumns.Proofs.Schema.Trees

namespace NestedColumns.Schema

/-- The entries that name the given one as their parent, in the order of the list. -/
def childIds (entries : List NodeEntry) (id : FieldId) : List FieldId :=
  (List.range entries.length).filter fun child => entries[child]?.bind (·.parent) = some id

/-- The entry with the given number has a cardinality that passes the test. -/
def cardinalityHas (entries : List NodeEntry) (test : Cardinality → Bool) (id : FieldId) : Bool :=
  entries[id]?.any fun entry => test entry.cardinality

/-- What a schema tells of the entry to which a chain of parents leads. -/
structure DerivedAt (entries : List NodeEntry) (schema : Schema) (id : FieldId)
    (chain : List FieldId) : Prop where
  ancestry : schema.ancestry? id = some chain
  maxRepetition : schema.maxRepetition? id =
    some (chain.countP (cardinalityHas entries Cardinality.isRepeated))
  maxDefinition : schema.maxDefinition? id =
    some (chain.countP (cardinalityHas entries Cardinality.mayBeAbsent))
  depth : schema.depth? id = some chain.length
  children : (schema.node? id).map (fun node => node.children.map (·.id)) =
    some (childIds entries id)
  /-- Level 0 has no owner, nor has a level with no repeated entry left for it. -/
  owner : ∀ level, schema.repeatedAncestorAt? id level =
    some (if level = 0 then none
      else (chain.filter (cardinalityHas entries Cardinality.isRepeated))[level - 1]?)

mutual

/-- The leaves at and below an entry, depth first. -/
inductive LeavesFrom (entries : List NodeEntry) : FieldId → List FieldId → Prop
  | leaf {id : FieldId} {entry : NodeEntry} (listed : entries[id]? = some entry)
      (typed : entry.type.isSome) : LeavesFrom entries id [id]
  | group {id : FieldId} {entry : NodeEntry} {leaves : List FieldId}
      (listed : entries[id]? = some entry) (untyped : entry.type = none)
      (below : LeavesFromAll entries (childIds entries id) leaves) : LeavesFrom entries id leaves

/-- The leaves at and below the given entries, one after the other. -/
inductive LeavesFromAll (entries : List NodeEntry) : List FieldId → List FieldId → Prop
  | nil : LeavesFromAll entries [] []
  | cons {id : FieldId} {ids here later : List FieldId} (first : LeavesFrom entries id here)
      (rest : LeavesFromAll entries ids later) : LeavesFromAll entries (id :: ids) (here ++ later)

end

/-- The leaves that a schema lists. -/
structure DerivedLeaves (entries : List NodeEntry) (schema : Schema) : Prop where
  depthFirst : LeavesFrom entries rootId schema.leafIds
  once : schema.leafIds.Nodup
  mem_iff : ∀ id, id ∈ schema.leafIds ↔ ∃ entry, entries[id]? = some entry ∧ entry.type.isSome
  ordinal_iff : ∀ id ordinal, schema.leafOrdinal? id = some ordinal ↔
    schema.leafIds[ordinal]? = some id
  /-- Groups, and the root with them, have no ordinal. -/
  ordinal_eq_none : ∀ id entry, entries[id]? = some entry → entry.type = none →
    schema.leafOrdinal? id = none

variable {schema : Schema} {root entry : NodeEntry} {rest entries : List NodeEntry} {id : FieldId}
  {node : Node} {label : Label} {chain chain' : List FieldId}

/-! ### Chains of parents -/

/-- An entry has one chain of parents. -/
theorem ParentChain.eq (parentless : root.parent = none)
    (leads : ParentChain (root :: rest) id chain) (leads' : ParentChain (root :: rest) id chain') :
    chain = chain' := by
  induction leads generalizing chain' with
  | root =>
    cases leads' with
    | root => rfl
    | child listed linked _ => exact absurd rfl (ne_rootId_of_linked parentless listed linked)
  | child listed linked _ ih =>
    cases leads' with
    | root => exact absurd rfl (ne_rootId_of_linked parentless listed linked)
    | child listed' linked' above' =>
      obtain rfl := Option.some.inj (listed.symm.trans listed')
      obtain rfl := Option.some.inj (linked.symm.trans linked')
      rw [ih above']

section Described

variable (describes : Describes root rest schema)

include describes

/-- The numbers on the path of a node are its chain of parents. -/
theorem Describes.parentChain (member : node ∈ schema.nodes) :
    ParentChain (root :: rest) node.id node.ancestry := by
  obtain ⟨chain, last⟩ := isChain_of_mem_nodes describes.grown member
  exact parentChain_of_isChain chain last

/-- An entry to which a chain of parents leads is a node with that ancestry. -/
theorem Describes.exists_node (leads : ParentChain (root :: rest) id chain) :
    ∃ node ∈ schema.nodes, node.id = id ∧ node.ancestry = chain ∧ ∃ entry,
      (root :: rest)[id]? = some entry ∧ Grown (rest.zipIdx 1) entry id node.field.children := by
  obtain ⟨node, member, rfl, entry, listed, grown⟩ :=
    exists_mem_nodes describes.grown describes.parentless leads.hasDepth
  have same := (describes.parentChain member).eq describes.parentless leads
  exact ⟨node, member, rfl, same, entry, listed, grown⟩

/-- A node other than the root is listed with what it shows. -/
theorem Describes.getElem?_id (member : node ∈ schema.nodes) (field : node.id ≠ rootId) :
    (root :: rest)[node.id]? = some node.entry :=
  ((mem_zipIdx_iff root).mp (describes.mem_zipIdx_entry member field)).2

/-- Every field on a path is listed with its cardinality. -/
theorem Describes.cardinalityHas_eq (member : node ∈ schema.nodes) (onPath : label ∈ node.path)
    (test : Cardinality → Bool) :
    cardinalityHas (root :: rest) test label.id = test label.cardinality := by
  have field := describes.isAccepted.id_ne_rootId member onPath
  obtain ⟨k, found⟩ := List.getElem?_of_mem onPath
  obtain ⟨above, among, _, rfl⟩ := exists_mem_nodes_of_getElem?_path member found
  have listed : (root :: rest)[above.label.id]? = _ := describes.getElem?_id among field
  rw [cardinalityHas, listed]
  rfl

theorem Describes.countP_ancestry (member : node ∈ schema.nodes) (test : Cardinality → Bool) :
    node.ancestry.countP (cardinalityHas (root :: rest) test) =
      node.path.countP (test ·.cardinality) := by
  unfold Node.ancestry Path.ids
  rw [List.countP_map]
  refine List.countP_congr fun label onPath => ?_
  exact iff_of_eq (congrArg (· = true) (describes.cardinalityHas_eq member onPath test))

theorem Describes.filter_ancestry (member : node ∈ schema.nodes) (test : Cardinality → Bool) :
    node.ancestry.filter (cardinalityHas (root :: rest) test) =
      (node.path.filter (test ·.cardinality)).map (·.id) := by
  unfold Node.ancestry Path.ids
  rw [List.filter_map]
  refine congrArg (List.map _) (List.filter_congr fun label onPath => ?_)
  exact describes.cardinalityHas_eq member onPath test

end Described

/-- The repeated fields of a path own the levels from 1 on. -/
theorem map_id_repeatedAncestorAt? {level : Level} (positive : level ≠ 0) :
    (node.repeatedAncestorAt? level).map (·.id) =
      ((node.path.filter (·.cardinality.isRepeated)).map (·.id))[level - 1]? := by
  have owner : (Path.ownerIndex level node.path).bind (node.path[·]?) =
      (node.path.filter (·.cardinality.isRepeated))[level - (0 + 1)]? :=
    Path.bind_ownerFrom (Nat.pos_of_ne_zero positive)
  rw [List.getElem?_map, ← owner]
  rfl

/-! ### Children -/

theorem map_id_children (node : Node) :
    node.children.map (·.id) = node.field.children.map (·.label.id) := by
  have numbers := congrArg (List.map Label.id) node.map_label_children
  rwa [List.map_map, List.map_map] at numbers

theorem Grown.map_id_fields {numbered : List (NodeEntry × FieldId)} {fields : List Field}
    (grown : Grown numbered entry id fields) :
    fields.map (·.label.id) = (childEntries numbered id).map Prod.snd := by
  cases grown with
  | node checked each =>
    rw [(checkedChildren_eq_ok.mp checked).1, List.map_map]
    exact List.map_congr_left fun child _ => congrArg Label.id (label_fieldOfEntry _ _ _)

theorem childIds_eq (parentless : root.parent = none) (id : FieldId) :
    childIds (root :: rest) id = (childEntries (rest.zipIdx 1) id).map Prod.snd := by
  have positions : List.range (root :: rest).length = rootId :: (rest.zipIdx 1).map Prod.snd := by
    rw [List.zipIdx_map_snd, List.range_eq_range', List.length_cons, List.range'_succ]
    rfl
  have top : ¬ decide ((root :: rest)[rootId]?.bind (·.parent) = some id) = true := by
    rw [show (root :: rest)[rootId]? = some root from rfl, Option.bind_some, parentless]
    simp
  unfold childIds
  rw [positions, List.filter_cons_of_neg (by exact top), List.filter_map]
  refine congrArg (List.map _) (List.filter_congr ?_)
  rintro ⟨entry, number⟩ member
  obtain ⟨_, listed⟩ := (mem_zipIdx_iff root).mp member
  show decide ((root :: rest)[number]?.bind (·.parent) = some id) = _
  rw [listed]
  rfl

/-- **What a schema tells of a node** is what the chain of its parents says. -/
theorem Describes.derivedAt (describes : Describes root rest schema)
    (leads : ParentChain (root :: rest) id chain) :
    DerivedAt (root :: rest) schema id chain := by
  obtain ⟨node, member, rfl, rfl, entry, listed, grown⟩ := describes.exists_node leads
  have found := describes.isAccepted.node?_id member
  constructor
  case ancestry =>
    unfold ancestry?
    rw [found, Option.map_some]
  case maxRepetition =>
    rw [maxRepetition?, found, Option.map_some, describes.countP_ancestry member]
    rfl
  case maxDefinition =>
    rw [maxDefinition?, found, Option.map_some, describes.countP_ancestry member]
    rfl
  case depth =>
    rw [depth?, found, Option.map_some, Node.ancestry, Path.ids, List.length_map]
    rfl
  case children =>
    rw [found, Option.map_some, map_id_children, grown.map_id_fields,
      childIds_eq describes.parentless]
  case owner =>
    intro level
    unfold repeatedAncestorAt?
    by_cases positive : level = 0
    · rw [if_pos positive, if_pos positive]
    · rw [if_neg positive, if_neg positive, found, Option.map_some,
        map_id_repeatedAncestorAt? positive, describes.filter_ancestry member]

/-! ### Leaves -/

/-- The leaves of the field that grows from an entry are met depth first. -/
theorem leavesFrom_of_grown (parentless : root.parent = none) {fields : List Field}
    (grown : Grown (rest.zipIdx 1) entry id fields) (listed : (root :: rest)[id]? = some entry)
    (path : Path) (column : Nat) :
    LeavesFrom (root :: rest) id
      (((fieldOfEntry entry id fields).leaves path column).map (·.id)) := by
  induction grown generalizing path column with
  | @node entry id children inside checked each ih =>
    obtain ⟨childrenEq, _, _, shape⟩ := checkedChildren_eq_ok.mp checked
    cases type : entry.type with
    | some scalar =>
      rw [fieldOfEntry_of_some type]
      exact .leaf listed (Option.isSome_iff_exists.mpr ⟨scalar, type⟩)
    | none =>
      -- the children follow one another, each with the column and the path that it has there
      have following : ∀ some ⊆ children, ∀ column, LeavesFromAll (root :: rest)
          (some.map Prod.snd) ((Field.leavesAll path column
            (some.map fun child => fieldOfEntry child.1 child.2 (inside child))).map (·.id)) := by
        intro some among column
        induction some generalizing column with
        | nil => exact .nil
        | cons child others further =>
          obtain ⟨here, later⟩ := List.cons_subset.mp among
          have found : (root :: rest)[child.2]? = some child.1 := by
            rw [childrenEq] at here
            exact ((mem_childEntries_iff root).mp here).1.2
          rw [List.map_cons, List.map_cons, Field.leavesAll_cons, List.map_append]
          exact .cons (ih child here found _ _) (further later _)
      rw [fieldOfEntry_of_none type, Field.leaves_group]
      refine .group listed type ?_
      rw [childIds_eq parentless, ← childrenEq]
      exact following children (List.Subset.refl _) column

/-- The leaves are the entries with a scalar type. -/
theorem Describes.mem_leafIds_iff (describes : Describes root rest schema) :
    id ∈ schema.leafIds ↔ ∃ entry, (root :: rest)[id]? = some entry ∧ entry.type.isSome := by
  have accepted := describes.isAccepted
  constructor
  · intro member
    obtain ⟨leaf, among, rfl⟩ := List.mem_map.mp member
    obtain ⟨listed, isLeaf⟩ := List.mem_filter.mp among
    have field := (accepted.path_ne_nil_iff listed).mp (path_ne_nil_of_mem_leaves among)
    exact ⟨leaf.entry, describes.getElem?_id listed field, isLeaf⟩
  · rintro ⟨entry, listed, typed⟩
    obtain ⟨node, member, rfl⟩ :=
      List.mem_map.mp (describes.mem_ids_iff.mpr (List.getElem?_eq_some_iff.mp listed).1)
    by_cases top : node.id = rootId
    · rw [top] at listed
      obtain rfl : root = entry := Option.some.inj listed
      rw [describes.untyped] at typed
      cases typed
    · obtain rfl := Option.some.inj ((describes.getElem?_id member top).symm.trans listed)
      exact List.mem_map_of_mem (List.mem_filter.mpr ⟨member, typed⟩)

/-- The ordinals of the leaves are their positions. -/
theorem IsAccepted.leafOrdinal?_eq_some_iff (accepted : schema.IsAccepted) {ordinal : Nat} :
    schema.leafOrdinal? id = some ordinal ↔ schema.leafIds[ordinal]? = some id := by
  constructor
  · intro found
    obtain ⟨inside, here, _⟩ := List.idxOf?_eq_some_iff.mp found
    exact List.getElem?_eq_some_iff.mpr ⟨inside, here⟩
  · intro listed
    obtain ⟨leaf, found, rfl⟩ := leafIds_getElem?_eq_some_iff.mp listed
    exact Machine.idxOf?_map_id accepted.nodup_leafIds found

/-- **The leaves of a schema** are the entries with a scalar type, met depth first. -/
theorem Describes.derivedLeaves (describes : Describes root rest schema) :
    DerivedLeaves (root :: rest) schema := by
  have accepted := describes.isAccepted
  constructor
  case depthFirst =>
    have leaves := leavesFrom_of_grown describes.parentless describes.grown rfl [] 0
    rwa [fieldOfEntry_of_none describes.untyped, Field.leaves_group] at leaves
  case once => exact accepted.nodup_leafIds
  case mem_iff => exact fun id => describes.mem_leafIds_iff
  case ordinal_iff => exact fun id ordinal => accepted.leafOrdinal?_eq_some_iff
  case ordinal_eq_none =>
    intro id entry listed untyped
    refine Option.eq_none_iff_forall_ne_some.mpr fun ordinal found => ?_
    have member := List.mem_of_getElem? (accepted.leafOrdinal?_eq_some_iff.mp found)
    obtain ⟨own, listed', typed⟩ := describes.mem_leafIds_iff.mp member
    obtain rfl := Option.some.inj (listed.symm.trans listed')
    rw [untyped] at typed
    cases typed

/-- **A schema tells of its nodes what the links of its list say**, in whatever order the list
stands. -/
theorem derived_of_links (accepted : ofEntries entries = .ok schema) :
    (∀ id < entries.length, ∃ chain, ParentChain entries id chain) ∧
      (∀ id chain, ParentChain entries id chain → DerivedAt entries schema id chain) ∧
      DerivedLeaves entries schema := by
  obtain ⟨root, rest, rfl, describes⟩ := ofEntries_eq_ok.mp accepted
  refine ⟨fun id inside => ?_, fun id chain leads => describes.derivedAt leads,
    describes.derivedLeaves⟩
  obtain ⟨node, member, rfl⟩ := List.mem_map.mp (describes.mem_ids_iff.mpr inside)
  exact ⟨node.ancestry, describes.parentChain member⟩

/-- The type of documents as a list in which fields stand before the groups that they lie in. -/
def Sample.shuffledDocument : List NodeEntry :=
  [ .root "Document",
    ⟨"Backward", .repeated, some .int64, some 6⟩,
    ⟨"Forward", .repeated, some .int64, some 6⟩,
    ⟨"Code", .required, some .string, some 7⟩,
    ⟨"Country", .optional, some .string, some 7⟩,
    ⟨"DocId", .required, some .int64, some 0⟩,
    ⟨"Links", .optional, none, some 0⟩,
    ⟨"Language", .repeated, none, some 9⟩,
    ⟨"Url", .optional, some .string, some 9⟩,
    ⟨"Name", .repeated, none, some 0⟩ ]

/-- The code of a language stands below two groups that are repeated. -/
theorem derived_shuffledDocument :
    ∃ schema, ofEntries Sample.shuffledDocument = .ok schema ∧
      ParentChain Sample.shuffledDocument 3 [9, 7, 3] ∧
      DerivedAt Sample.shuffledDocument schema 3 [9, 7, 3] ∧
      schema.maxRepetition? 3 = some 2 ∧ schema.repeatedAncestorAt? 3 2 = some (some 7) ∧
      DerivedLeaves Sample.shuffledDocument schema := by
  obtain ⟨schema, accepted⟩ : ∃ schema, ofEntries Sample.shuffledDocument = .ok schema := ⟨_, rfl⟩
  obtain ⟨_, derived, leaves⟩ := derived_of_links accepted
  have chain : ParentChain Sample.shuffledDocument 3 ((([] ++ [9]) ++ [7]) ++ [3]) :=
    .child rfl rfl (.child rfl rfl (.child rfl rfl .root))
  have here := derived 3 [9, 7, 3] chain
  exact ⟨schema, accepted, chain, here, here.maxRepetition, here.owner 2, leaves⟩

end NestedColumns.Schema
