/-
Accepted schemas.

A schema is accepted if a parent-linked list of nodes describes it (`Schema.IsAccepted`).

* `Grown entries entry id fields` — the fields below an entry, as the entries that name it as their
  parent say; growing a tree gives nothing else (`grown_of_grow`).
* `Field.WellFormed` — at every depth siblings have words as names and differ in name and number,
  and groups are not empty. Every tree that is grown is well formed (`Grown.wellFormed`).
* `Describes root rest schema` — all that is checked of a list with the first entry `root`, and the
  schema that it describes; nothing else is accepted (`ofEntries?_eq_ok`).
* `Schema.IsAccepted.nodup_ids` — **no two nodes of an accepted schema have the same number**: the
  numbers on the path of a node are the chain of its parents, and this chain is determined by its
  last number.
-/

import Mathlib.Data.List.Chain
import Mathlib.Data.List.Nodup
import NestedColumns.Proofs.Schema.Leaves
import NestedColumns.Proofs.Sequence
import NestedColumns.Sample.Document
import NestedColumns.Schema.NodeList

namespace NestedColumns

/-! ### Names -/

/-- A name that a field may have: a word without a dot. -/
def IsFieldName (name : String) : Prop :=
  name ≠ "" ∧ '.' ∉ name.toList

namespace Schema

/-- A schema that a parent-linked list of nodes describes. -/
def IsAccepted (schema : Schema) : Prop :=
  ∃ entries, ofEntries entries = .ok schema

/-- The names of siblings pass if they are words, none is taken and none is used twice. -/
theorem checkNames_eq_ok {parent : String} {names taken : List String} :
    checkNames parent taken names = .ok () ↔
      (∀ name ∈ names, IsFieldName name ∧ name ∉ taken) ∧ names.Nodup := by
  induction names generalizing taken with
  | nil => simp [checkNames]
  | cons name names ih =>
    rw [checkNames, List.forall_mem_cons, List.nodup_cons]
    by_cases word : IsFieldName name
    · have passes : ¬ (name.isEmpty || name.toList.contains '.') = true := by
        simpa [IsFieldName] using word
      rw [if_neg passes]
      by_cases used : name ∈ taken
      · simp [used]
      · rw [if_neg (by simpa using used), ih]
        constructor
        · rintro ⟨each, distinct⟩
          refine ⟨⟨⟨word, used⟩, fun other member => ?_⟩, fun again => ?_, distinct⟩
          · exact ⟨(each other member).1, fun inside =>
              (each other member).2 (List.mem_cons_of_mem _ inside)⟩
          · exact (each name again).2 List.mem_cons_self
        · rintro ⟨⟨_, each⟩, fresh, distinct⟩
          refine ⟨fun other member => ⟨(each other member).1, fun inside => ?_⟩, distinct⟩
          rcases List.mem_cons.mp inside with rfl | inside
          · exact fresh member
          · exact (each other member).2 inside
    · have refused : (name.isEmpty || name.toList.contains '.') = true := by
        by_contra passes
        exact word (by simpa [IsFieldName] using passes)
      rw [if_pos refused]
      constructor
      · rintro ⟨⟩
      · rintro ⟨⟨⟨good, _⟩, _⟩, _⟩
        exact absurd good word

/-! ### Children of an entry -/

/-- The children of an entry pass if they are well named and there are some exactly if the entry has
no scalar type. -/
theorem checkedChildren_eq_ok {entries children : List (NodeEntry × FieldId)} {entry : NodeEntry}
    {id : FieldId} : checkedChildren entries entry id = .ok children ↔
      children = childEntries entries id ∧
        (∀ name ∈ children.map (·.1.name), IsFieldName name) ∧
        (children.map (·.1.name)).Nodup ∧ (entry.type = none ↔ children ≠ []) := by
  have names : checkNames entry.name [] ((childEntries entries id).map (·.1.name)) = .ok () ↔
      (∀ name ∈ (childEntries entries id).map (·.1.name), IsFieldName name) ∧
        ((childEntries entries id).map (·.1.name)).Nodup := by
    simp [checkNames_eq_ok]
  unfold checkedChildren
  dsimp only
  generalize childEntries entries id = listed at names
  constructor
  · intro checked
    obtain ⟨⟨⟩, passed, shape⟩ := bind_eq_ok.mp checked
    obtain ⟨words, distinct⟩ := names.mp passed
    cases type : entry.type with
    | some scalar =>
      cases listed with
      | nil =>
        rw [type] at shape
        cases shape
        simp
      | cons first rest =>
        rw [type] at shape
        cases shape
    | none =>
      cases listed with
      | nil =>
        rw [type] at shape
        cases shape
      | cons first rest =>
        rw [type] at shape
        cases shape
        exact ⟨rfl, words, distinct, by simp⟩
  · rintro ⟨rfl, words, distinct, shape⟩
    refine bind_eq_ok.mpr ⟨(), names.mpr ⟨words, distinct⟩, ?_⟩
    cases type : entry.type with
    | some scalar =>
      have none : children = [] := by
        by_contra some
        exact absurd (shape.mpr some) (by simp [type])
      rw [none]
    | none =>
      obtain ⟨first, rest, rfl⟩ := List.exists_cons_of_ne_nil (shape.mp type)
      rfl

/-- **The fields below an entry**, as a list of entries describes them: the entries that name it as
their parent, in order, each with the fields below it. -/
inductive Grown (entries : List (NodeEntry × FieldId)) : NodeEntry → FieldId → List Field → Prop
  | node {entry : NodeEntry} {id : FieldId} {children : List (NodeEntry × FieldId)}
      {inside : NodeEntry × FieldId → List Field}
      (checked : checkedChildren entries entry id = .ok children)
      (each : ∀ child ∈ children, Grown entries child.1 child.2 (inside child)) :
      Grown entries entry id
        (children.map fun child => fieldOfEntry child.1 child.2 (inside child))

/-- Without room nothing grows. -/
theorem grow_zero_ne_ok {entries : List (NodeEntry × FieldId)} {entry : NodeEntry} {id : FieldId}
    {fields : List Field} : grow entries 0 entry id ≠ .ok fields := by
  intro grown
  unfold grow at grown
  obtain ⟨_, _, failed⟩ := bind_eq_ok.mp grown
  cases failed

/-- With room a field grows for each child that passes. -/
theorem grow_succ_eq_ok {entries : List (NodeEntry × FieldId)} {room : Nat} {entry : NodeEntry}
    {id : FieldId} {fields : List Field} : grow entries (room + 1) entry id = .ok fields ↔
      ∃ children, checkedChildren entries entry id = .ok children ∧
        List.Forall₂ (fun child field => ∃ below, grow entries room child.1 child.2 = .ok below ∧
          fieldOfEntry child.1 child.2 below = field) children fields := by
  have each : ∀ (child : NodeEntry × FieldId) (field : Field),
      (do let below ← grow entries room child.1 child.2
          return fieldOfEntry child.1 child.2 below : Except ConfigurationReason Field) = .ok field ↔
        ∃ below, grow entries room child.1 child.2 = .ok below ∧
          fieldOfEntry child.1 child.2 below = field := by
    intro child field
    rw [bind_eq_ok]
    exact exists_congr fun below => and_congr_right fun _ =>
      ⟨fun made => Except.ok.inj made, fun same => congrArg Except.ok same⟩
  conv_lhs => unfold grow
  rw [bind_eq_ok]
  refine exists_congr fun children => and_congr_right fun _ => ?_
  show children.mapM _ = Except.ok fields ↔ _
  rw [mapM_eq_ok]
  exact ⟨fun made => made.imp fun child field => (each child field).mp,
    fun made => made.imp fun child field => (each child field).mpr⟩

/-- A tree that is grown from entries is the tree that they describe. -/
theorem grown_of_grow {entries : List (NodeEntry × FieldId)} {room : Nat} {entry : NodeEntry}
    {id : FieldId} {fields : List Field} (grown : grow entries room entry id = .ok fields) :
    Grown entries entry id fields := by
  induction room generalizing entry id fields with
  | zero => exact absurd grown grow_zero_ne_ok
  | succ room ih =>
    obtain ⟨children, checked, made⟩ := grow_succ_eq_ok.mp grown
    let inside : NodeEntry × FieldId → List Field := fun child =>
      match grow entries room child.1 child.2 with
      | .ok fields => fields
      | .error _ => []
    have insideEq : ∀ child below, grow entries room child.1 child.2 = .ok below →
        inside child = below := by
      intro child below grownBelow
      simp only [inside, grownBelow]
    have fieldsEq : children.map (fun child => fieldOfEntry child.1 child.2 (inside child)) =
        fields := by
      rw [← List.forall₂_eq_eq_eq, List.forall₂_map_left_iff]
      refine made.imp fun child field made => ?_
      obtain ⟨below, grownBelow, rfl⟩ := made
      rw [insideEq child below grownBelow]
    rw [← fieldsEq]
    refine .node checked fun child member => ?_
    obtain ⟨_, _, below, grownBelow, _⟩ := exists_of_mem_of_forall₂ made member
    rw [insideEq child below grownBelow]
    exact ih grownBelow

end Schema

/-! ### Well-formed trees -/

/-- **A tree in which nothing clashes**: at every depth siblings have words as names and differ in
name and in number, and groups are not empty. -/
inductive Field.WellFormed : Field → Prop
  | leaf (label : Label) (type : ScalarType) : WellFormed (.leaf label type)
  | group {label : Label} {children : List Field} (inhabited : children ≠ [])
      (words : ∀ child ∈ children, IsFieldName child.label.name)
      (named : (children.map (·.label.name)).Nodup)
      (numbered : (children.map (·.label.id)).Nodup)
      (each : ∀ child ∈ children, child.WellFormed) : WellFormed (.group label children)

mutual

/-- Every field of a well-formed tree is well formed. -/
theorem Field.wellFormed_of_mem_walk {path : Path} {column : Nat} {node : Node} :
    ∀ {field : Field}, field.WellFormed → node ∈ field.walk path column → node.field.WellFormed
  | .leaf label type, wellFormed, member => by
    rw [walk, List.mem_singleton] at member
    rw [member]
    exact wellFormed
  | .group label children, wellFormed, member => by
    rw [walk, List.mem_cons] at member
    rcases member with rfl | below
    · exact wellFormed
    · cases wellFormed with
      | group _ _ _ _ each => exact Field.wellFormed_of_mem_walkAll each below

theorem Field.wellFormed_of_mem_walkAll {path : Path} {column : Nat} {node : Node} :
    ∀ {fields : List Field}, (∀ field ∈ fields, field.WellFormed) →
      node ∈ walkAll path column fields → node.field.WellFormed
  | field :: fields, each, member => by
    rw [List.forall_mem_cons] at each
    rw [walkAll, List.mem_append] at member
    rcases member with here | later
    · exact Field.wellFormed_of_mem_walk each.1 here
    · exact Field.wellFormed_of_mem_walkAll each.2 later

end

namespace Schema

theorem fieldOfEntry_of_some {entry : NodeEntry} {type : ScalarType} (typed : entry.type = some type)
    (id : FieldId) (children : List Field) :
    fieldOfEntry entry id children = .leaf ⟨id, entry.name, entry.cardinality⟩ type := by
  unfold fieldOfEntry
  rw [typed]

theorem fieldOfEntry_of_none {entry : NodeEntry} (untyped : entry.type = none) (id : FieldId)
    (children : List Field) :
    fieldOfEntry entry id children = .group ⟨id, entry.name, entry.cardinality⟩ children := by
  unfold fieldOfEntry
  rw [untyped]

theorem label_fieldOfEntry (entry : NodeEntry) (id : FieldId) (children : List Field) :
    (fieldOfEntry entry id children).label = ⟨id, entry.name, entry.cardinality⟩ := by
  cases type : entry.type with
  | some scalar => rw [fieldOfEntry_of_some type, Field.label]
  | none => rw [fieldOfEntry_of_none type, Field.label]

/-- Entries that are listed with numbers of their own, none of them the root's. -/
structure Numbered (entries : List (NodeEntry × FieldId)) : Prop where
  nodup : (entries.map (·.2)).Nodup
  positive : ∀ entry ∈ entries, entry.2 ≠ rootId

theorem numbered_zipIdx (rest : List NodeEntry) : Numbered (rest.zipIdx 1) where
  nodup := by
    rw [List.zipIdx_map_snd]
    exact List.nodup_range' 1
  positive := fun entry member same => by
    have above := List.le_snd_of_mem_zipIdx member
    rw [same, rootId] at above
    omega

/-- The field of an entry is well formed, whatever is grown below it. -/
theorem Grown.wellFormed {entries : List (NodeEntry × FieldId)} (own : Numbered entries)
    {entry : NodeEntry} {id : FieldId} {fields : List Field}
    (grown : Grown entries entry id fields) : (fieldOfEntry entry id fields).WellFormed := by
  induction grown with
  | @node entry id children inside checked each ih =>
    obtain ⟨childrenEq, words, named, shape⟩ := checkedChildren_eq_ok.mp checked
    cases type : entry.type with
    | some scalar =>
      rw [fieldOfEntry_of_some type]
      exact .leaf _ _
    | none =>
      have labels : (children.map fun child => fieldOfEntry child.1 child.2 (inside child)).map
          (·.label) = children.map fun child => ⟨child.2, child.1.name, child.1.cardinality⟩ := by
        rw [List.map_map]
        exact List.map_congr_left fun child _ => label_fieldOfEntry _ _ _
      have names := congrArg (List.map Label.name) labels
      have numbers := congrArg (List.map Label.id) labels
      simp only [List.map_map] at names numbers
      rw [fieldOfEntry_of_none type]
      refine .group ?_ ?_ ?_ ?_ ?_
      · simpa using shape.mp type
      · intro field member
        obtain ⟨child, among, rfl⟩ := List.mem_map.mp member
        rw [label_fieldOfEntry]
        exact words _ (List.mem_map_of_mem among)
      · rw [List.map_map]
        exact names ▸ named
      · rw [List.map_map]
        refine numbers ▸ ?_
        rw [childrenEq]
        exact own.nodup.sublist (List.filter_sublist.map _)
      · intro field member
        obtain ⟨child, among, rfl⟩ := List.mem_map.mp member
        exact ih child among

/-- The fields grown below an entry are the children of its field. -/
theorem Grown.children_fieldOfEntry {entries : List (NodeEntry × FieldId)} {entry : NodeEntry}
    {id : FieldId} {fields : List Field} (grown : Grown entries entry id fields) :
    (fieldOfEntry entry id fields).children = fields := by
  cases type : entry.type with
  | none => rw [fieldOfEntry_of_none type, Field.children]
  | some scalar =>
    cases grown with
    | node checked _ =>
      have none := (checkedChildren_eq_ok.mp checked).2.2.2
      rw [type] at none
      obtain rfl := not_ne_iff.mp fun listed => Option.some_ne_none _ (none.mpr listed)
      rw [fieldOfEntry_of_some type, Field.children, List.map_nil]

/-! ### Numbers -/

/-- The first number is that of the parent of the second. -/
def IsParent (entries : List (NodeEntry × FieldId)) (parent child : FieldId) : Prop :=
  ∃ entry, (entry, child) ∈ entries ∧ entry.parent = some parent

/-- An entry has one parent at most. -/
theorem Numbered.parent_eq {entries : List (NodeEntry × FieldId)} (own : Numbered entries)
    {above above' child : FieldId} (first : IsParent entries above child)
    (second : IsParent entries above' child) : above = above' := by
  obtain ⟨entry, member, parent⟩ := first
  obtain ⟨entry', member', parent'⟩ := second
  obtain ⟨rfl, _⟩ := Prod.mk.inj (List.inj_on_of_nodup_map own.nodup member member' rfl)
  exact Option.some.inj (parent.symm.trans parent')

/-- The numbers on the path of a node below an entry are a chain of parents from that entry on. -/
theorem Grown.isChain {entries : List (NodeEntry × FieldId)} {entry : NodeEntry} {id : FieldId}
    {fields : List Field} (grown : Grown entries entry id fields) {node : Node} :
    ∀ {path : Path} {column : Nat}, node ∈ Field.walkAll path column fields →
      ∃ rest, rest ≠ [] ∧ node.path = path ++ rest ∧
        (id :: Path.ids rest).IsChain (IsParent entries) := by
  induction grown with
  | @node entry id children inside checked each ih =>
    intro path column member
    obtain ⟨field, among, first, here⟩ := Field.exists_of_mem_walkAll member
    obtain ⟨child, listed, rfl⟩ := List.mem_map.mp among
    have parent : IsParent entries id child.2 := by
      rw [(checkedChildren_eq_ok.mp checked).1, childEntries, List.mem_filter] at listed
      exact ⟨child.1, listed.1, by simpa using listed.2⟩
    rw [label_fieldOfEntry, Field.mem_walk_iff, (each child listed).children_fieldOfEntry] at here
    rcases here with same | below
    · exact ⟨_, List.cons_ne_nil _ [], congrArg Node.path same, .cons_cons parent (.singleton _)⟩
    · obtain ⟨rest, _, pathEq, chain⟩ := ih child listed below
      refine ⟨⟨child.2, child.1.name, child.1.cardinality⟩ :: rest, List.cons_ne_nil _ _, ?_,
        .cons_cons parent chain⟩
      rw [pathEq, List.append_assoc, List.singleton_append]

/-- The last number of a chain of parents has the number before it as its parent. -/
theorem isParent_of_isChain {entries : List (NodeEntry × FieldId)} {before : List FieldId}
    {last : FieldId} (chain : (rootId :: (before ++ [last])).IsChain (IsParent entries)) :
    (rootId :: before).IsChain (IsParent entries) ∧
      ∃ parent, (rootId :: before).getLast? = some parent ∧ IsParent entries parent last := by
  rw [← List.cons_append, List.isChain_append] at chain
  refine ⟨chain.1, _, List.getLast?_cons, ?_⟩
  exact chain.2.2 _ List.getLast?_cons last rfl

/-- **Chains of parents from the root that end with the same number are the same.** -/
theorem eq_of_isChain_parent {entries : List (NodeEntry × FieldId)} (own : Numbered entries)
    (first second : List FieldId) (firstChain : (rootId :: first).IsChain (IsParent entries))
    (secondChain : (rootId :: second).IsChain (IsParent entries))
    (last : (rootId :: first).getLast? = (rootId :: second).getLast?) : first = second := by
  have notRoot : ∀ parent, ¬ IsParent entries parent rootId := by
    rintro parent ⟨entry, member, _⟩
    exact own.positive _ member rfl
  -- the last numbers agree, so their parents do, and so on up to the root, which has no parent
  induction first using List.reverseRecOn generalizing second with
  | nil =>
    cases second using List.reverseRecOn with
    | nil => rfl
    | append_singleton before other =>
      obtain ⟨_, parent, _, above⟩ := isParent_of_isChain secondChain
      rw [← List.cons_append, List.getLast?_concat] at last
      obtain rfl : rootId = other := Option.some.inj last
      exact absurd above (notRoot parent)
  | append_singleton before number ih =>
    obtain ⟨firstRest, parent, parentLast, above⟩ := isParent_of_isChain firstChain
    rw [← List.cons_append, List.getLast?_concat] at last
    cases second using List.reverseRecOn with
    | nil =>
      obtain rfl : number = rootId := Option.some.inj last
      exact absurd above (notRoot parent)
    | append_singleton before' other =>
      obtain ⟨secondRest, parent', parentLast', above'⟩ := isParent_of_isChain secondChain
      rw [← List.cons_append, List.getLast?_concat] at last
      obtain rfl : number = other := Option.some.inj last
      rw [ih before' firstRest secondRest
        (by rw [parentLast, parentLast', own.parent_eq above above'])]

end Schema

mutual

/-- In a well-formed tree no two nodes stand on paths with the same numbers. -/
theorem Field.nodup_ids_path_walk {path : Path} {column : Nat} :
    ∀ {field : Field}, field.WellFormed →
      ((field.walk path column).map fun node => Path.ids node.path).Nodup
  | .leaf label type, _ => List.nodup_singleton _
  | .group label children, .group _ _ _ numbered each => by
    rw [walk, List.map_cons, List.nodup_cons]
    refine ⟨fun again => ?_, Field.nodup_ids_path_walkAll each numbered⟩
    obtain ⟨node, below, same⟩ := List.mem_map.mp again
    obtain ⟨field, _, rest, through⟩ := path_isPrefix_of_mem_walkAll below
    have lengths := congrArg List.length same
    rw [← through] at lengths
    simp [Path.ids] at lengths

theorem Field.nodup_ids_path_walkAll {path : Path} {column : Nat} :
    ∀ {fields : List Field}, (∀ field ∈ fields, field.WellFormed) →
      (fields.map (·.label.id)).Nodup →
      ((walkAll path column fields).map fun node => Path.ids node.path).Nodup
  | [], _, _ => List.nodup_nil
  | field :: fields, each, numbered => by
    rw [List.map_cons, List.nodup_cons] at numbered
    rw [walkAll, List.map_append, List.nodup_append]
    refine ⟨Field.nodup_ids_path_walk (each field List.mem_cons_self),
      Field.nodup_ids_path_walkAll (fun other member => each other (List.mem_cons_of_mem _ member))
        numbered.2, ?_⟩
    intro ids here ids' later same
    obtain ⟨node, member, rfl⟩ := List.mem_map.mp here
    obtain ⟨node', member', rfl⟩ := List.mem_map.mp later
    obtain ⟨rest, through⟩ := path_isPrefix_of_mem_walk member
    obtain ⟨other, among, rest', through'⟩ := path_isPrefix_of_mem_walkAll member'
    rw [← through, ← through'] at same
    simp only [Path.ids, List.map_append, List.map_cons, List.append_assoc,
      List.append_cancel_left_eq, List.cons_append, List.nil_append, List.cons.injEq] at same
    exact numbered.1 (List.mem_map.mpr ⟨other, among, same.1.symm⟩)

end

namespace Schema

/-! ### Accepted lists -/

/-- What an accepted list of nodes and its schema are like. -/
structure Describes (root : NodeEntry) (rest : List NodeEntry) (schema : Schema) : Prop where
  parentless : root.parent = none
  untyped : root.type = none
  count : rest.length + 1 < UInt32.size
  parents : ∀ entry ∈ rest.zipIdx 1,
    ∃ parent, entry.1.parent = some parent ∧ parent < rest.length + 1 ∧ parent ≠ entry.2
  name : schema.name = root.name
  fields : grow (rest.zipIdx 1) (maxDepth + 1) root rootId = .ok schema.fields
  reached : ∀ entry ∈ rest.zipIdx 1, entry.2 ∈ schema.nodes.map (·.id)

theorem checkParents_eq_ok {count : Nat} {entries : List (NodeEntry × FieldId)} :
    checkParents count entries = .ok () ↔ ∀ entry ∈ entries,
      ∃ parent, entry.1.parent = some parent ∧ parent < count ∧ parent ≠ entry.2 := by
  unfold checkParents
  rw [forM_eq_ok]
  refine forall₂_congr fun entry _ => ?_
  obtain ⟨entry, id⟩ := entry
  dsimp only
  cases entry.parent with
  | none => simp
  | some parent =>
    by_cases dangling : count ≤ parent
    · simp [dangling]
    · dsimp only
      rw [if_neg dangling]
      by_cases own : parent = id
      · simp [own]
      · simp [own, Nat.lt_of_not_le dangling]

theorem checkReached_eq_ok {reached : List FieldId} {entries : List (NodeEntry × FieldId)} :
    checkReached reached entries = .ok () ↔ ∀ entry ∈ entries, entry.2 ∈ reached := by
  unfold checkReached
  rw [forM_eq_ok]
  refine forall₂_congr fun entry _ => ?_
  by_cases member : entry.2 ∈ reached <;> simp [member]

/-- **What is checked of a list of nodes**, and the schema that it describes. -/
theorem ofEntries?_eq_ok {root : NodeEntry} {rest : List NodeEntry} {schema : Schema} :
    ofEntries? (root :: rest) = .ok schema ↔ Describes root rest schema := by
  unfold ofEntries?
  dsimp only
  by_cases malformed : (root.parent.isSome || root.type.isSome) = true
  · rw [if_pos malformed]
    refine iff_of_false (by rintro ⟨⟩) fun describes => ?_
    simp [describes.parentless, describes.untyped] at malformed
  rw [if_neg malformed]
  by_cases tooMany : UInt32.size ≤ rest.length + 1
  · rw [if_pos tooMany]
    exact iff_of_false (by rintro ⟨⟩) fun describes =>
      absurd describes.count (Nat.not_lt_of_le tooMany)
  rw [if_neg tooMany]
  constructor
  · intro accepted
    obtain ⟨⟨⟩, parents, accepted⟩ := bind_eq_ok.mp accepted
    obtain ⟨fields, grown, accepted⟩ := bind_eq_ok.mp accepted
    obtain ⟨⟨⟩, reached, accepted⟩ := bind_eq_ok.mp accepted
    cases accepted
    simp only [Bool.or_eq_true, not_or, Option.not_isSome_iff_eq_none] at malformed
    exact
      { parentless := malformed.1
        untyped := malformed.2
        count := Nat.lt_of_not_le tooMany
        parents := checkParents_eq_ok.mp parents
        name := rfl
        fields := grown
        reached := checkReached_eq_ok.mp reached }
  · intro describes
    obtain ⟨name, fields⟩ := schema
    obtain rfl : name = root.name := describes.name
    refine bind_eq_ok.mpr ⟨(), checkParents_eq_ok.mpr describes.parents, ?_⟩
    refine bind_eq_ok.mpr ⟨fields, describes.fields, ?_⟩
    exact bind_eq_ok.mpr ⟨(), checkReached_eq_ok.mpr describes.reached, rfl⟩

theorem ofEntries_eq_ok {entries : List NodeEntry} {schema : Schema} :
    ofEntries entries = .ok schema ↔
      ∃ root rest, entries = root :: rest ∧ Describes root rest schema := by
  have same : ofEntries entries = .ok schema ↔ ofEntries? entries = .ok schema := by
    unfold ofEntries
    cases ofEntries? entries <;> simp [Except.mapError]
  rw [same]
  cases entries with
  | nil => exact iff_of_false (by rintro ⟨⟩) (by rintro ⟨root, rest, ⟨⟩, _⟩)
  | cons root rest =>
    rw [ofEntries?_eq_ok]
    constructor
    · exact fun describes => ⟨root, rest, rfl, describes⟩
    · rintro ⟨root', rest', ⟨⟩, describes⟩
      exact describes

theorem IsAccepted.exists_describes {schema : Schema} (accepted : schema.IsAccepted) :
    ∃ root rest, Describes root rest schema := by
  obtain ⟨entries, described⟩ := accepted
  obtain ⟨root, rest, _, describes⟩ := ofEntries_eq_ok.mp described
  exact ⟨root, rest, describes⟩

theorem Describes.grown {schema : Schema} {root : NodeEntry} {rest : List NodeEntry}
    (describes : Describes root rest schema) : Grown (rest.zipIdx 1) root rootId schema.fields :=
  grown_of_grow describes.fields

/-- The tree of an accepted schema is well formed. -/
theorem IsAccepted.wellFormed {schema : Schema} (accepted : schema.IsAccepted) :
    schema.root.field.WellFormed := by
  obtain ⟨root, rest, describes⟩ := accepted.exists_describes
  have tree := describes.grown.wellFormed (numbered_zipIdx rest)
  rw [fieldOfEntry_of_none describes.untyped] at tree
  cases tree with
  | group inhabited words named numbered each =>
    exact .group inhabited words named numbered each

/-- The numbers on the path of a node of an accepted schema are a chain of parents from the root
that ends with the number of the node. -/
theorem isChain_of_mem_nodes {schema : Schema} {entries : List (NodeEntry × FieldId)}
    {entry : NodeEntry} (grown : Grown entries entry rootId schema.fields) {node : Node}
    (member : node ∈ schema.nodes) :
    (rootId :: Path.ids node.path).IsChain (IsParent entries) ∧
      (rootId :: Path.ids node.path).getLast? = some node.id := by
  rcases List.mem_cons.mp member with rfl | below
  · exact ⟨.singleton _, rfl⟩
  · obtain ⟨rest, _, pathEq, chain⟩ := grown.isChain below
    have pathEq : node.path = rest := pathEq
    have last := Field.getLast?_path_of_mem_walkAll below
    rw [pathEq] at last ⊢
    refine ⟨chain, ?_⟩
    rw [List.getLast?_cons, Path.ids, List.getLast?_map, last]
    rfl

/-- **No two nodes of an accepted schema have the same number.** -/
theorem IsAccepted.nodup_ids {schema : Schema} (accepted : schema.IsAccepted) :
    (schema.nodes.map (·.id)).Nodup := by
  have paths : (schema.nodes.map fun node => Path.ids node.path).Nodup :=
    Field.nodup_ids_path_walk accepted.wellFormed
  obtain ⟨root, rest, describes⟩ := accepted.exists_describes
  rw [List.Nodup, List.pairwise_map] at paths ⊢
  refine paths.imp_of_mem fun member member' differ same => differ ?_
  obtain ⟨chain, last⟩ := isChain_of_mem_nodes describes.grown member
  obtain ⟨chain', last'⟩ := isChain_of_mem_nodes describes.grown member'
  exact eq_of_isChain_parent (numbered_zipIdx rest) _ _ chain chain' (by rw [last, last', same])

theorem IsAccepted.nodup_leafIds {schema : Schema} (accepted : schema.IsAccepted) :
    schema.leafIds.Nodup :=
  accepted.nodup_ids.sublist (List.filter_sublist.map _)

/-- Nodes of an accepted schema with the same number are the same. -/
theorem IsAccepted.eq_of_id_eq {schema : Schema} (accepted : schema.IsAccepted) {a b : Node}
    (first : a ∈ schema.nodes) (second : b ∈ schema.nodes) (same : a.id = b.id) : a = b :=
  List.inj_on_of_nodup_map accepted.nodup_ids first second same

/-- Nodes of an accepted schema with the same path are the same. -/
theorem IsAccepted.eq_of_path_eq {schema : Schema} (accepted : schema.IsAccepted) {a b : Node}
    (first : a ∈ schema.nodes) (second : b ∈ schema.nodes) (same : a.path = b.path) : a = b :=
  List.inj_on_of_nodup_map (Field.nodup_ids_path_walk accepted.wellFormed) first second
    (congrArg Path.ids same)

/-- Looking up a key finds the one member that has it. -/
theorem find?_eq_some_iff_of_inj {α β : Type} [BEq β] [LawfulBEq β] {key : α → β} {list : List α}
    {wanted : β} {a : α} (distinct : ∀ a ∈ list, ∀ b ∈ list, key a = key b → a = b) :
    list.find? (key · == wanted) = some a ↔ a ∈ list ∧ key a = wanted := by
  constructor
  · intro found
    exact ⟨List.mem_of_find?_eq_some found, by simpa using List.find?_some found⟩
  · rintro ⟨member, rfl⟩
    cases found : list.find? (key · == key a) with
    | none => exact absurd (beq_self_eq_true (key a)) (List.find?_eq_none.mp found a member)
    | some other =>
      have same : key other = key a := by simpa using List.find?_some found
      rw [distinct other (List.mem_of_find?_eq_some found) a member same]

/-- Looking up the number of a node finds the node. -/
theorem IsAccepted.node?_id {schema : Schema} (accepted : schema.IsAccepted) {node : Node}
    (member : node ∈ schema.nodes) : schema.node? node.id = some node :=
  (find?_eq_some_iff_of_inj fun _ first _ second => accepted.eq_of_id_eq first second).mpr
    ⟨member, rfl⟩

theorem mem_nodes_of_node? {schema : Schema} {id : FieldId} {node : Node}
    (found : schema.node? id = some node) : node ∈ schema.nodes ∧ node.id = id :=
  ⟨List.mem_of_find?_eq_some found, by simpa using List.find?_some found⟩

theorem IsAccepted.resolve_id {schema : Schema} (accepted : schema.IsAccepted) {node : Node}
    (member : node ∈ schema.nodes) : schema.resolve node.id = .ok node := by
  unfold resolve
  rw [accepted.node?_id member]

end Schema

/-! ### The sample type -/

/-- The type of documents, with its numbers. -/
def Sample.documentType : Schema where
  name := "Document"
  fields :=
    [ .leaf ⟨1, "DocId", .required⟩ .int64,
      .group ⟨2, "Links", .optional⟩
        [ .leaf ⟨3, "Backward", .repeated⟩ .int64,
          .leaf ⟨4, "Forward", .repeated⟩ .int64 ],
      .group ⟨5, "Name", .repeated⟩
        [ .group ⟨6, "Language", .repeated⟩
            [ .leaf ⟨7, "Code", .required⟩ .string,
              .leaf ⟨8, "Country", .optional⟩ .string ],
          .leaf ⟨9, "Url", .optional⟩ .string ] ]

theorem Sample.documentType_isAccepted : Sample.documentType.IsAccepted :=
  ⟨documentDraft.entries, rfl⟩

end NestedColumns
