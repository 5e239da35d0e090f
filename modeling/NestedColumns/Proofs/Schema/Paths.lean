/-
Dotted paths.

A field is found under the dotted path that it shows, and under no other; and a path leads where its
names lead one after the other (`findPath?_iff`). This holds of every text, also of one with empty
names or with dots at its ends.

* `IsAccepted.walk?_eq_some_iff` — walking down by names ends at the node whose path has these
  names, since siblings differ in their names;
* `IsAccepted.segments_pathText` — the names of a path are read back from its text, since they are
  words without a dot.
-/

import NestedColumns.Proofs.Schema.Sharing

namespace NestedColumns.Schema

/-- The words between the dots of a text. -/
def segments (text : String) : List String :=
  (text.toList.splitOn '.').map String.ofList

/-- Walking down from a node by the names of children. -/
def walk? (schema : Schema) (id : FieldId) : List String → Option FieldId
  | [] => some id
  | name :: names => (schema.findChild? id name).bind fun child => schema.walk? child.id names

variable {schema : Schema} {a b node : Node} {id : FieldId} {name : String} {names : List String}

/-! ### Texts and their segments -/

/-- The segments of a text, with dots between them, are the text. -/
theorem intercalate_segments (text : String) : ".".intercalate (segments text) = text := by
  refine String.toList_injective ?_
  have plain : (segments text).map String.toList = text.toList.splitOn '.' := by
    rw [segments, List.map_map]
    exact List.map_id'' (fun _ => String.toList_ofList) _
  rw [String.toList_intercalate, plain]
  exact List.intercalate_splitOn '.'

/-- Names without a dot are the segments of the text that they make. -/
theorem segments_intercalate (some : names ≠ []) (words : ∀ name ∈ names, IsFieldName name) :
    segments (".".intercalate names) = names := by
  have dotless : ∀ word ∈ names.map String.toList, '.' ∉ word := by
    intro word member
    obtain ⟨name, among, rfl⟩ := List.mem_map.mp member
    exact (words name among).2
  unfold segments
  rw [String.toList_intercalate]
  show ((['.'].intercalate (names.map String.toList)).splitOn '.').map String.ofList = names
  rw [List.splitOn_intercalate '.' dotless (by simpa using some), List.map_map]
  exact List.map_id'' (fun _ => String.ofList_toList) _

namespace IsAccepted

variable (accepted : schema.IsAccepted)

include accepted

/-! ### Parents and children -/

/-- The children of a node are the nodes whose path goes on by themselves. -/
theorem mem_children_iff (member : a ∈ schema.nodes) :
    b ∈ a.children ↔ b ∈ schema.nodes ∧ b.path = a.path ++ [b.label] := by
  unfold Node.children
  rw [Node.mem_childrenFrom_iff]
  constructor
  · rintro ⟨below, same⟩
    refine ⟨Field.subtree_subset_walk member (a.walkAll_children_subset below), ?_⟩
    obtain ⟨field, _, through⟩ := Field.path_isPrefix_of_mem_walkAll below
    have whole := through.eq_of_length (by rw [same, List.length_append, List.length_singleton])
    have ends := Field.getLast?_path_of_mem_walkAll below
    rw [← whole, List.getLast?_concat] at ends
    rw [← whole, Option.some.inj ends]
  · rintro ⟨listed, goesOn⟩
    have lengths : b.path.length = a.path.length + 1 := by
      rw [goesOn, List.length_append, List.length_singleton]
    refine ⟨?_, lengths⟩
    have inside := Field.mem_subtree_of_isPrefix accepted.wellFormed member listed
      (goesOn ▸ List.prefix_append _ _)
    rcases Field.mem_walk_iff.mp inside with rfl | below
    · exact absurd lengths (Nat.ne_of_lt (Nat.lt_succ_self _))
    · exact below

/-- Every step of the path of a node leads from a node to one of its children. -/
theorem exists_child (member : b ∈ schema.nodes) {path : Path} {label : Label}
    (goesOn : path ++ [label] <+: b.path) :
    ∃ a ∈ schema.nodes, a.path = path ∧ ∃ child ∈ a.children, child.label = label := by
  have leads : path <+: b.path := (List.prefix_append path [label]).trans goesOn
  obtain ⟨a, above, rfl⟩ := Field.exists_mem_walk_of_isPrefix member List.nil_prefix leads
  obtain ⟨child, among, ends, rfl⟩ := exists_mem_nodes_of_isPrefix member goesOn
  exact ⟨a, above, rfl, child, (accepted.mem_children_iff above).mpr ⟨among, ends⟩, rfl⟩

/-- The names of the children of a node are words, and differ. -/
theorem names_children (member : a ∈ schema.nodes) :
    (∀ child ∈ a.children, IsFieldName child.name) ∧ (a.children.map (·.name)).Nodup := by
  have names := congrArg (List.map Label.name) a.map_label_children
  rw [List.map_map, List.map_map] at names
  have wellFormed := Field.wellFormed_of_mem_walk accepted.wellFormed member
  constructor
  · intro child among
    have listed : child.label ∈ a.children.map (·.label) := List.mem_map_of_mem among
    rw [a.map_label_children] at listed
    obtain ⟨field, inside, same⟩ := List.mem_map.mp listed
    rw [Node.name, ← same]
    generalize a.field = field at wellFormed inside
    cases wellFormed with
    | leaf label type => cases inside
    | group _ words _ _ _ => exact words _ inside
  · show (a.children.map (Label.name ∘ Node.label)).Nodup
    rw [names]
    generalize a.field = field at wellFormed
    cases wellFormed with
    | leaf label type => exact List.nodup_nil
    | group _ _ named _ _ => exact named

/-- The names on the path of a node are words. -/
theorem isFieldName_of_mem_path (member : b ∈ schema.nodes) {label : Label}
    (onPath : label ∈ b.path) : IsFieldName label.name := by
  obtain ⟨before, after, parts⟩ := List.append_of_mem onPath
  have goesOn : before ++ [label] <+: b.path := ⟨after, by rw [parts, List.append_assoc]; rfl⟩
  obtain ⟨a, above, _, child, among, rfl⟩ := accepted.exists_child member goesOn
  exact (accepted.names_children above).1 child among

/-! ### Walking down -/

theorem findChild?_eq_some_iff (member : a ∈ schema.nodes) :
    schema.findChild? a.id name = some b ↔ b ∈ a.children ∧ b.name = name := by
  unfold findChild?
  rw [accepted.node?_id member]
  exact find?_eq_some_iff_of_inj fun _ first _ second =>
    List.inj_on_of_nodup_map (accepted.names_children member).2 first second

/-- **Walking down by names** ends at the node whose path goes on with these names. -/
theorem walk?_eq_some_iff (member : a ∈ schema.nodes) : schema.walk? a.id names = some id ↔
    ∃ node ∈ schema.nodes, node.id = id ∧
      ∃ rest, node.path = a.path ++ rest ∧ rest.map (·.name) = names := by
  induction names generalizing a with
  | nil =>
    constructor
    · intro found
      exact ⟨a, member, Option.some.inj found, [], (List.append_nil _).symm, rfl⟩
    · rintro ⟨node, among, rfl, rest, goesOn, none⟩
      rw [List.map_eq_nil_iff.mp none, List.append_nil] at goesOn
      rw [accepted.eq_of_path_eq among member goesOn]
      rfl
  | cons name names ih =>
    rw [walk?, Option.bind_eq_some_iff]
    constructor
    · rintro ⟨child, found, onward⟩
      obtain ⟨below, rfl⟩ := (accepted.findChild?_eq_some_iff member).mp found
      obtain ⟨listed, ends⟩ := (accepted.mem_children_iff member).mp below
      obtain ⟨node, among, rfl, rest, goesOn, rfl⟩ := (ih listed).mp onward
      refine ⟨node, among, rfl, child.label :: rest, ?_, rfl⟩
      rw [goesOn, ends, List.append_assoc, List.singleton_append]
    · rintro ⟨node, among, rfl, rest, goesOn, named⟩
      obtain ⟨label, rest, rfl, rfl, rfl⟩ := List.map_eq_cons_iff.mp named
      have through : a.path ++ [label] <+: node.path :=
        ⟨rest, by rw [goesOn, List.append_assoc, List.singleton_append]⟩
      obtain ⟨above, listed, same, child, below, rfl⟩ := accepted.exists_child among through
      obtain rfl := accepted.eq_of_path_eq listed member same
      obtain ⟨inside, ends⟩ := (accepted.mem_children_iff member).mp below
      refine ⟨child, (accepted.findChild?_eq_some_iff member).mpr ⟨below, rfl⟩, ?_⟩
      refine (ih inside).mpr ⟨node, among, rfl, rest, ?_, rfl⟩
      rw [goesOn, ends, List.append_assoc, List.singleton_append]

/-- From the root the walk ends at the node whose path has the names. -/
theorem walk?_rootId_eq_some_iff : schema.walk? rootId names = some id ↔
    ∃ node ∈ schema.nodes, node.id = id ∧ node.path.map (·.name) = names := by
  have root : schema.root ∈ schema.nodes := List.mem_cons_self
  rw [show rootId = schema.root.id from rfl, accepted.walk?_eq_some_iff root]
  constructor
  · rintro ⟨node, among, same, rest, rfl, named⟩
    exact ⟨node, among, same, named⟩
  · rintro ⟨node, among, same, named⟩
    exact ⟨node, among, same, node.path, rfl, named⟩

/-! ### Dotted paths -/

/-- **The names of a path are read back from its text.** -/
theorem segments_pathText (member : node ∈ schema.nodes) (field : node.path ≠ []) :
    segments node.pathText = node.path.map (·.name) := by
  refine segments_intercalate (by simpa using field) fun name among => ?_
  obtain ⟨label, onPath, rfl⟩ := List.mem_map.mp among
  exact accepted.isFieldName_of_mem_path member onPath

/-- **Fields have different dotted paths.** -/
theorem eq_of_pathText_eq (first : a ∈ schema.nodes) (second : b ∈ schema.nodes)
    (field : a.path ≠ []) (field' : b.path ≠ []) (same : a.pathText = b.pathText) : a = b := by
  have names := congrArg segments same
  rw [accepted.segments_pathText first field, accepted.segments_pathText second field'] at names
  have here := accepted.walk?_rootId_eq_some_iff.mpr ⟨a, first, rfl, rfl⟩
  have there := accepted.walk?_rootId_eq_some_iff.mpr ⟨b, second, rfl, rfl⟩
  rw [names, there] at here
  exact accepted.eq_of_id_eq first second (Option.some.inj here).symm

theorem findPath?_eq_some_iff {path : String} : schema.findPath? path = some node ↔
    node ∈ schema.nodes ∧ node.path ≠ [] ∧ node.pathText = path := by
  have distinct : ∀ a ∈ schema.nodes.tail, ∀ b ∈ schema.nodes.tail,
      a.pathText = b.pathText → a = b := by
    intro a first b second same
    obtain ⟨first, field⟩ := mem_tail_nodes_iff.mp first
    obtain ⟨second, field'⟩ := mem_tail_nodes_iff.mp second
    exact accepted.eq_of_pathText_eq first second field field' same
  unfold findPath?
  rw [find?_eq_some_iff_of_inj distinct, mem_tail_nodes_iff, and_assoc]

/-- A node is found under the text by which its names are walked down. -/
theorem findPath?_eq_some_iff_walk? {path : String} :
    (schema.findPath? path).map (·.id) = some id ↔
      schema.walk? rootId (segments path) = some id := by
  rw [accepted.walk?_rootId_eq_some_iff, Option.map_eq_some_iff]
  refine exists_congr fun node => ?_
  rw [accepted.findPath?_eq_some_iff]
  constructor
  · rintro ⟨⟨member, field, rfl⟩, same⟩
    exact ⟨member, same, (accepted.segments_pathText member field).symm⟩
  · rintro ⟨member, same, named⟩
    refine ⟨⟨member, fun none => ?_, ?_⟩, same⟩
    · rw [none, List.map_nil, segments, eq_comm, List.map_eq_nil_iff] at named
      exact List.splitOn_ne_nil _ _ named
    · rw [Node.pathText, Path.text, named, intercalate_segments]

end IsAccepted

/-- **A dotted path identifies a field**: the one that shows it, which is the one where its names
lead. -/
theorem findPath?_iff (accepted : schema.IsAccepted) :
    (∀ a ∈ schema.nodes, ∀ b ∈ schema.nodes, a.id ≠ rootId → b.id ≠ rootId →
      a.pathText = b.pathText → a = b) ∧
    ∀ path id,
      ((schema.findPath? path).map (·.id) = some id ↔
        ∃ node, schema.node? id = some node ∧ id ≠ rootId ∧ node.pathText = path) ∧
      ((schema.findPath? path).map (·.id) = some id ↔
        schema.walk? rootId (segments path) = some id) := by
  constructor
  · intro a first b second field field' same
    exact accepted.eq_of_pathText_eq first second ((accepted.path_ne_nil_iff first).mpr field)
      ((accepted.path_ne_nil_iff second).mpr field') same
  · intro path id
    refine ⟨?_, accepted.findPath?_eq_some_iff_walk?⟩
    rw [Option.map_eq_some_iff]
    refine exists_congr fun node => ?_
    rw [accepted.findPath?_eq_some_iff]
    constructor
    · rintro ⟨⟨member, field, shown⟩, rfl⟩
      exact ⟨accepted.node?_id member, (accepted.path_ne_nil_iff member).mp field, shown⟩
    · rintro ⟨found, field, shown⟩
      obtain ⟨member, rfl⟩ := mem_nodes_of_node? found
      exact ⟨⟨member, (accepted.path_ne_nil_iff member).mpr field, shown⟩, rfl⟩

/-- The names on the way to the country of a language lead to the node that shows its path. -/
theorem findPath?_country :
    Sample.documentType.IsAccepted ∧
      Sample.documentType.walk? rootId (segments "Name.Language.Country") = some 8 ∧
      ∃ node, Sample.documentType.node? 8 = some node ∧ 8 ≠ rootId ∧
        node.pathText = "Name.Language.Country" := by
  obtain ⟨_, paths⟩ := findPath?_iff Sample.documentType_isAccepted
  obtain ⟨shown, walked⟩ := paths "Name.Language.Country" 8
  have led : Sample.documentType.walk? rootId (segments "Name.Language.Country") = some 8 := by
    decide +kernel
  exact ⟨Sample.documentType_isAccepted, led, shown.mp (walked.mpr led)⟩

/-- Two dots in a row stand around an empty name, which no field has. -/
example : segments "Name..Url" = ["Name", "", "Url"] ∧
    Sample.documentType.walk? rootId (segments "Name..Url") = none := by
  decide +kernel

end NestedColumns.Schema
