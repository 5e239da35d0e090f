/-
What two fields of a schema share.

* `Path.shared` is the longest common beginning of two paths, fields being told apart by number.
* `Field.triplewise_commonRepetition_leavesAll` — **the least-level law**: of three leaves in
  depth-first order, the outer two share the lesser of the levels that neighbours share. Along the
  leaves before a given one, the shared level therefore never falls.
* Two leaves part below some field (`Field.exists_parted_of_mem_leavesAll`), which is their common
  ancestor (`Node.commonAncestorPath_of_parted`).
* In an accepted schema a number determines its field and everything above it
  (`IsAccepted.take_path_eq`), so sharing is symmetric (`IsAccepted.commonRepetition_comm`) and a
  leaf lies below a field of another leaf's path exactly if it shares that part of the path
  (`IsAccepted.mem_ids_iff`).
-/

import Mathlib.Data.List.Pairwise
import Mathlib.Data.List.Triplewise
import NestedColumns.Proofs.Schema.Accepted
import NestedColumns.Schema.Ancestor

namespace NestedColumns

namespace Path

/-! ### Levels along a path -/

theorem repetitionLevel_append (first second : Path) :
    repetitionLevel (first ++ second) = repetitionLevel first + repetitionLevel second :=
  List.countP_append

theorem definitionLevel_append (first second : Path) :
    definitionLevel (first ++ second) = definitionLevel first + definitionLevel second :=
  List.countP_append

theorem repetitionLevel_le_of_isPrefix {first second : Path} (leads : first <+: second) :
    repetitionLevel first ≤ repetitionLevel second :=
  leads.sublist.countP_le

theorem definitionLevel_le_of_isPrefix {first second : Path} (leads : first <+: second) :
    definitionLevel first ≤ definitionLevel second :=
  leads.sublist.countP_le

theorem repetitionLevel_singleton_of_repeated {label : Label}
    (repeats : label.cardinality.isRepeated = true) : repetitionLevel [label] = 1 := by
  unfold repetitionLevel
  rw [List.countP_singleton, if_pos repeats]

/-! ### The shared beginning -/

theorem shared_nil_left (path : Path) : shared [] path = [] := by
  rw [shared]
  exact fun _ _ _ _ same => by cases same

theorem shared_append (path first second : Path) :
    shared (path ++ first) (path ++ second) = path ++ shared first second := by
  induction path with
  | nil => rfl
  | cons label path ih => rw [List.cons_append, List.cons_append, shared, if_pos rfl, ih]; rfl

theorem shared_cons_of_ne {a b : Label} (differ : a.id ≠ b.id) (first second : Path) :
    shared (a :: first) (b :: second) = [] := by
  rw [shared, if_neg differ]

theorem shared_isPrefix_left : ∀ first second : Path, shared first second <+: first
  | [], second => by
    have none := shared_nil_left second
    exact none ▸ List.prefix_rfl
  | a :: first, [] => List.nil_prefix
  | a :: first, b :: second => by
    by_cases same : a.id = b.id
    · rw [shared, if_pos same, List.cons_prefix_cons]
      exact ⟨rfl, shared_isPrefix_left first second⟩
    · rw [shared_cons_of_ne same]
      exact List.nil_prefix

theorem length_shared_le_right : ∀ first second : Path, (shared first second).length ≤ second.length
  | [], _ => Nat.zero_le _
  | _ :: _, [] => Nat.le_refl 0
  | a :: as, b :: bs => by
    rw [shared]
    by_cases same : a.id = b.id
    · rw [if_pos same]
      exact Nat.succ_le_succ (length_shared_le_right as bs)
    · rw [if_neg same]
      exact Nat.zero_le _

/-- Paths with a common beginning share at least that. -/
theorem isPrefix_shared {path first second : Path} (leads : path <+: first)
    (leads' : path <+: second) : path <+: shared first second := by
  obtain ⟨rest, rfl⟩ := leads
  obtain ⟨rest', rfl⟩ := leads'
  rw [shared_append]
  exact List.prefix_append _ _

/-- Paths that part below `path` share exactly that. -/
theorem shared_eq_of_parted {path first second : Path} {a b : Label}
    (leads : path ++ [a] <+: first) (leads' : path ++ [b] <+: second) (differ : a.id ≠ b.id) :
    shared first second = path := by
  obtain ⟨rest, rfl⟩ := leads
  obtain ⟨rest', rfl⟩ := leads'
  rw [List.append_assoc, List.append_assoc, shared_append, List.singleton_append,
    List.singleton_append, shared_cons_of_ne differ, List.append_nil]

/-- The shared beginning does not depend on the order of the paths if numbers determine fields. -/
theorem shared_comm : ∀ {first second : Path},
    (∀ a ∈ first, ∀ b ∈ second, a.id = b.id → a = b) → shared first second = shared second first
  | [], second, _ => by cases second <;> rfl
  | a :: first, [], _ => rfl
  | a :: first, b :: second, determined => by
    by_cases same : a.id = b.id
    · have fields := determined a List.mem_cons_self b List.mem_cons_self same
      subst fields
      rw [shared, if_pos rfl, shared, if_pos rfl, shared_comm fun x inFirst y inSecond =>
        determined x (List.mem_cons_of_mem _ inFirst) y (List.mem_cons_of_mem _ inSecond)]
    · rw [shared_cons_of_ne same, shared_cons_of_ne (Ne.symm same)]

/-- Within what they share, paths are the same. -/
theorem take_eq_of_lt_shared {first second : Path}
    (determined : ∀ a ∈ first, ∀ b ∈ second, a.id = b.id → a = b) {i : Nat}
    (inside : i < (shared first second).length) : first.take (i + 1) = second.take (i + 1) := by
  have within : ∀ {path : Path}, shared first second <+: path →
      path.take (i + 1) = (shared first second).take (i + 1) := by
    rintro _ ⟨rest, rfl⟩
    exact List.take_append_of_le_length inside
  have leads := shared_isPrefix_left second first
  rw [← shared_comm determined] at leads
  rw [within (shared_isPrefix_left first second), within leads]

end Path

/-! ### The least-level law -/

namespace Node

theorem repetitionLevel_le_commonRepetition {path : Path} {a b : Node} (leads : path <+: a.path)
    (leads' : path <+: b.path) : Path.repetitionLevel path ≤ a.commonRepetition b :=
  Path.repetitionLevel_le_of_isPrefix (Path.isPrefix_shared leads leads')

theorem commonRepetition_of_parted {path : Path} {a b : Node} {first second : Label}
    (leads : path ++ [first] <+: a.path) (leads' : path ++ [second] <+: b.path)
    (differ : first.id ≠ second.id) : a.commonRepetition b = Path.repetitionLevel path := by
  unfold commonRepetition
  rw [Path.shared_eq_of_parted leads leads' differ]

theorem commonRepetition_le_maxRepetition (a b : Node) : a.commonRepetition b ≤ a.maxRepetition :=
  Path.repetitionLevel_le_of_isPrefix (Path.shared_isPrefix_left _ _)

theorem commonRepetition_self (a : Node) : a.commonRepetition a = a.maxRepetition := by
  have whole := Path.shared_append a.path [] []
  rw [List.append_nil] at whole
  unfold commonRepetition
  rw [whole, Path.shared_nil_left, List.append_nil]
  rfl

/-- The outer two of three leaves share the lesser of what neighbours share. -/
def LeastLevel (a b c : Node) : Prop :=
  a.commonRepetition c = min (a.commonRepetition b) (b.commonRepetition c)

end Node

mutual

theorem Field.triplewise_commonRepetition_leaves {path : Path} {column : Nat} :
    ∀ {field : Field}, field.WellFormed → (field.leaves path column).Triplewise Node.LeastLevel
  | .leaf _ _, _ => List.triplewise_singleton _ _
  | .group _ _, .group _ _ _ numbered each =>
    Field.triplewise_commonRepetition_leavesAll each numbered

/-- **The least-level law** for the leaves below siblings of a well-formed tree. -/
theorem Field.triplewise_commonRepetition_leavesAll {path : Path} {column : Nat} :
    ∀ {fields : List Field}, (∀ field ∈ fields, field.WellFormed) →
      (fields.map (·.label.id)).Nodup →
      (leavesAll path column fields).Triplewise Node.LeastLevel
  | [], _, _ => .nil
  | field :: fields, each, numbered => by
    rw [List.map_cons, List.nodup_cons] at numbered
    have parted : ∀ node ∈ field.leaves (path ++ [field.label]) column,
        ∀ node' ∈ leavesAll path (column + field.leafCount) fields,
        node.commonRepetition node' = Path.repetitionLevel path := by
      intro node member node' member'
      obtain ⟨other, among, through⟩ := path_isPrefix_of_mem_leavesAll member'
      refine Node.commonRepetition_of_parted (path_isPrefix_of_mem_leaves member) through ?_
      exact fun same => numbered.1 (List.mem_map.mpr ⟨other, among, same.symm⟩)
    have above : ∀ {siblings : List Field} {first : Nat}, ∀ node ∈ leavesAll path first siblings,
        path <+: node.path := by
      intro siblings first node member
      obtain ⟨other, _, through⟩ := path_isPrefix_of_mem_leavesAll member
      exact (List.prefix_append path _).trans through
    have under : ∀ node ∈ field.leaves (path ++ [field.label]) column, path <+: node.path :=
      fun node member => (List.prefix_append path _).trans (path_isPrefix_of_mem_leaves member)
    rw [leavesAll_cons, List.triplewise_append]
    refine ⟨Field.triplewise_commonRepetition_leaves (each field List.mem_cons_self),
      Field.triplewise_commonRepetition_leavesAll
        (fun other member => each other (List.mem_cons_of_mem _ member)) numbered.2, ?_, ?_⟩
    · intro a first
      refine List.pairwise_of_forall_mem_list fun b second c third => ?_
      have shares := Node.repetitionLevel_le_commonRepetition (above b second) (above c third)
      unfold Node.LeastLevel
      rw [parted a first b second, parted a first c third, min_eq_left shares]
    · intro c third
      refine List.pairwise_of_forall_mem_list fun a first b second => ?_
      have shares := Node.repetitionLevel_le_commonRepetition (under a first) (under b second)
      unfold Node.LeastLevel
      rw [parted a first c third, parted b second c third, min_eq_right shares]

end

/-! ### Common ancestors -/

namespace Node

variable {path : Path} {a b : Node} {x y : Label}

theorem dropLast_path_eq (leads : path ++ [x] <+: a.path) :
    ∃ rest : Path, a.path.dropLast = path ++ rest ∧ (rest = [] ∨ rest.head? = some x) := by
  obtain ⟨rest, parts⟩ := leads
  rw [← parts, List.append_assoc, List.singleton_append,
    List.dropLast_append_of_ne_nil (List.cons_ne_nil _ _)]
  cases rest with
  | nil => exact ⟨[], rfl, .inl rfl⟩
  | cons next rest => exact ⟨_, rfl, .inr rfl⟩

/-- Leaves that part below `path` have their common ancestor there. -/
theorem commonAncestorPath_of_parted (leads : path ++ [x] <+: a.path)
    (leads' : path ++ [y] <+: b.path) (differ : x.id ≠ y.id) (apart : a.id ≠ b.id) :
    a.commonAncestorPath b = path := by
  obtain ⟨rest, parts, starts⟩ := dropLast_path_eq leads
  obtain ⟨rest', parts', starts'⟩ := dropLast_path_eq leads'
  unfold commonAncestorPath
  rw [if_neg apart, parts, parts', Path.shared_append]
  have nothing : Path.shared rest rest' = [] := by
    rcases starts with rfl | starts
    · exact Path.shared_nil_left rest'
    rcases starts' with rfl | starts'
    · cases rest <;> rfl
    obtain ⟨more, rfl⟩ := List.head?_eq_some_iff.mp starts
    obtain ⟨more', rfl⟩ := List.head?_eq_some_iff.mp starts'
    exact Path.shared_cons_of_ne differ more more'
  rw [nothing, List.append_nil]

theorem length_le_commonAncestorPath (leads : path ++ [x] <+: a.path)
    (leads' : path ++ [y] <+: b.path) : path.length ≤ (a.commonAncestorPath b).length := by
  obtain ⟨rest, parts, _⟩ := dropLast_path_eq leads
  obtain ⟨rest', parts', _⟩ := dropLast_path_eq leads'
  unfold commonAncestorPath
  by_cases same : a.id = b.id
  · rw [if_pos same]
    by_cases repeats : a.isRepeated = true
    · rw [if_pos repeats]
      exact ((List.prefix_append path [x]).trans leads).length_le
    · rw [if_neg repeats, parts]
      exact (List.prefix_append path rest).length_le
  · rw [if_neg same, parts, parts', Path.shared_append]
    exact (List.prefix_append path _).length_le

end Node

/-! ### Leaves part -/

mutual

theorem Field.exists_parted_of_mem_leaves {path : Path} {column : Nat} {a b : Node} :
    ∀ {field : Field}, field.WellFormed → a ∈ field.leaves path column →
      b ∈ field.leaves path column → a.column ≠ b.column →
      ∃ above x y, above ++ [x] <+: a.path ∧ above ++ [y] <+: b.path ∧ x.id ≠ y.id
  | .leaf label type, _, first, second, distinct => by
    rw [leaves_leaf, List.mem_singleton] at first second
    rw [first, second] at distinct
    exact absurd rfl distinct
  | .group _ _, .group _ _ _ numbered each, first, second, distinct =>
    Field.exists_parted_of_mem_leavesAll each numbered first second distinct

/-- **The paths of two leaves part**, since no leaf lies below another. -/
theorem Field.exists_parted_of_mem_leavesAll {path : Path} {column : Nat} {a b : Node} :
    ∀ {fields : List Field}, (∀ field ∈ fields, field.WellFormed) →
      (fields.map (·.label.id)).Nodup → a ∈ leavesAll path column fields →
      b ∈ leavesAll path column fields → a.column ≠ b.column →
      ∃ above x y, above ++ [x] <+: a.path ∧ above ++ [y] <+: b.path ∧ x.id ≠ y.id
  | field :: fields, each, numbered, first, second, distinct => by
    rw [List.forall_mem_cons] at each
    rw [List.map_cons, List.nodup_cons] at numbered
    have parted : ∀ {other}, other ∈ fields → field.label.id ≠ other.label.id :=
      fun among same => numbered.1 (List.mem_map.mpr ⟨_, among, same.symm⟩)
    rw [leavesAll_cons, List.mem_append] at first second
    rcases first with here | later
    · rcases second with here' | later'
      · exact Field.exists_parted_of_mem_leaves each.1 here here' distinct
      · obtain ⟨other, among, through⟩ := path_isPrefix_of_mem_leavesAll later'
        exact ⟨path, _, _, path_isPrefix_of_mem_leaves here, through, parted among⟩
    · rcases second with here' | later'
      · obtain ⟨other, among, through⟩ := path_isPrefix_of_mem_leavesAll later
        exact ⟨path, _, _, through, path_isPrefix_of_mem_leaves here', (parted among).symm⟩
      · exact Field.exists_parted_of_mem_leavesAll each.2 numbered.2 later later' distinct

end

/-! ### Numbers determine fields -/

mutual

/-- Every field on the path of a node is itself a node. -/
theorem Field.exists_mem_walk_of_isPrefix {path way : Path} {column : Nat} {node : Node} :
    ∀ {field : Field}, node ∈ field.walk path column → path <+: way → way <+: node.path →
      ∃ above ∈ field.walk path column, above.path = way
  | .leaf label type, member, leads, ends => by
    rw [walk, List.mem_singleton] at member
    subst member
    exact ⟨_, List.mem_singleton_self _, leads.eq_of_length_le ends.length_le⟩
  | .group label children, member, leads, ends => by
    rw [walk, List.mem_cons] at member
    by_cases here : way = path
    · exact ⟨_, List.mem_cons_self, here.symm⟩
    rcases member with rfl | below
    · exact absurd (ends.eq_of_length_le leads.length_le) here
    · obtain ⟨above, among, same⟩ := Field.exists_mem_walkAll_of_isPrefix below leads here ends
      exact ⟨above, List.mem_cons_of_mem _ among, same⟩

theorem Field.exists_mem_walkAll_of_isPrefix {path way : Path} {column : Nat} {node : Node} :
    ∀ {fields : List Field}, node ∈ walkAll path column fields → path <+: way → way ≠ path →
      way <+: node.path → ∃ above ∈ walkAll path column fields, above.path = way
  | field :: fields, member, leads, longer, ends => by
    rw [walkAll, List.mem_append] at member
    rcases member with here | later
    · have through := path_isPrefix_of_mem_walk here
      have further : path ++ [field.label] <+: way := by
        refine List.prefix_of_prefix_length_le through ends ?_
        rw [List.length_append, List.length_singleton]
        exact Nat.lt_of_le_of_ne leads.length_le fun same => longer (leads.eq_of_length same).symm
      obtain ⟨above, among, same⟩ := Field.exists_mem_walk_of_isPrefix here further ends
      exact ⟨above, List.mem_append_left _ among, same⟩
    · obtain ⟨above, among, same⟩ := Field.exists_mem_walkAll_of_isPrefix later leads longer ends
      exact ⟨above, List.mem_append_right _ among, same⟩

end

mutual

/-- In a well-formed tree the nodes whose paths go on from a node are those of its subtree. -/
theorem Field.mem_subtree_of_isPrefix {path : Path} {column : Nat} {above node : Node} :
    ∀ {field : Field}, field.WellFormed → above ∈ field.walk path column →
      node ∈ field.walk path column → above.path <+: node.path → node ∈ above.subtree
  | .leaf label type, _, member, member', _ => by
    rw [walk, List.mem_singleton] at member
    rw [member]
    exact member'
  | .group label children, .group _ _ _ numbered each, member, member', leads => by
    have top := member'
    rw [walk, List.mem_cons] at member member'
    rcases member with rfl | below
    · exact top
    rcases member' with rfl | below'
    · obtain ⟨field, _, through⟩ := path_isPrefix_of_mem_walkAll below
      have lengths := (through.trans leads).length_le
      rw [List.length_append, List.length_singleton] at lengths
      exact absurd lengths (Nat.not_succ_le_self _)
    · exact Field.mem_subtreeAll_of_isPrefix each numbered below below' leads

theorem Field.mem_subtreeAll_of_isPrefix {path : Path} {column : Nat} {above node : Node} :
    ∀ {fields : List Field}, (∀ field ∈ fields, field.WellFormed) →
      (fields.map (·.label.id)).Nodup → above ∈ walkAll path column fields →
      node ∈ walkAll path column fields → above.path <+: node.path → node ∈ above.subtree
  | field :: fields, each, numbered, member, member', leads => by
    rw [List.map_cons, List.nodup_cons] at numbered
    have parted : ∀ {other first second}, other ∈ fields → path ++ [field.label] <+: first →
        path ++ [other.label] <+: second → ¬ first <+: second ∧ ¬ second <+: first := by
      intro other first second among leads leads'
      have differ : field.label.id ≠ other.label.id := fun same =>
        numbered.1 (List.mem_map.mpr ⟨other, among, same.symm⟩)
      have apart : ∀ {whole}, path ++ [field.label] <+: whole → path ++ [other.label] <+: whole →
          False := by
        intro whole leads leads'
        have same := (List.prefix_of_prefix_length_le leads leads' (by simp)).eq_of_length (by simp)
        exact differ (congrArg Label.id (List.singleton_inj.mp (List.append_cancel_left same)))
      exact ⟨fun onward => apart (leads.trans onward) leads',
        fun onward => apart leads (leads'.trans onward)⟩
    rw [walkAll, List.mem_append] at member member'
    rcases member with here | later
    · rcases member' with here' | later'
      · exact Field.mem_subtree_of_isPrefix (each field List.mem_cons_self) here here' leads
      · obtain ⟨other, among, through⟩ := path_isPrefix_of_mem_walkAll later'
        exact absurd leads (parted among (path_isPrefix_of_mem_walk here) through).1
    · rcases member' with here' | later'
      · obtain ⟨other, among, through⟩ := path_isPrefix_of_mem_walkAll later
        exact absurd leads (parted among (path_isPrefix_of_mem_walk here') through).2
      · exact Field.mem_subtreeAll_of_isPrefix
          (fun other member => each other (List.mem_cons_of_mem _ member)) numbered.2 later later'
          leads

end

namespace Schema

/-- Every step of the path of a node leads to a node. -/
theorem exists_mem_nodes_of_isPrefix {schema : Schema} {node : Node} (member : node ∈ schema.nodes)
    {path : Path} {label : Label} (leads : path ++ [label] <+: node.path) :
    ∃ above ∈ schema.nodes, above.path = path ++ [label] ∧ above.label = label := by
  obtain ⟨above, among, ends⟩ :=
    Field.exists_mem_walk_of_isPrefix member List.nil_prefix leads
  have last := getLast?_path_of_mem_nodes among (ends ▸ List.concat_ne_nil _ _)
  rw [ends, List.getLast?_concat] at last
  exact ⟨above, among, ends, (Option.some.inj last).symm⟩

/-- Every field on the path of a node is the field of a node. -/
theorem exists_mem_nodes_of_getElem?_path {schema : Schema} {node : Node} (member : node ∈ schema.nodes)
    {k : Nat} {label : Label} (found : node.path[k]? = some label) :
    ∃ above ∈ schema.nodes, above.path = node.path.take (k + 1) ∧ above.label = label := by
  have parts : node.path.take (k + 1) = node.path.take k ++ [label] := by
    rw [List.take_add_one, found, Option.toList_some]
  rw [parts]
  exact exists_mem_nodes_of_isPrefix member (parts ▸ List.take_prefix (k + 1) node.path)

/-- **A number on a path determines the path down to it.** -/
theorem IsAccepted.take_path_eq {schema : Schema} (accepted : schema.IsAccepted) {a b : Node}
    (first : a ∈ schema.nodes) (second : b ∈ schema.nodes) {i j : Nat} {x y : Label}
    (atFirst : a.path[i]? = some x) (atSecond : b.path[j]? = some y) (same : x.id = y.id) :
    a.path.take (i + 1) = b.path.take (j + 1) := by
  obtain ⟨above, among, ends, rfl⟩ := exists_mem_nodes_of_getElem?_path first atFirst
  obtain ⟨above', among', ends', rfl⟩ := exists_mem_nodes_of_getElem?_path second atSecond
  rw [← ends, ← ends', accepted.eq_of_id_eq among among' same]

/-- Every number on the path of a node is that of a node. -/
theorem mem_ids_of_mem_path {schema : Schema} {node : Node} (member : node ∈ schema.nodes)
    {label : Label} (onPath : label ∈ node.path) : label.id ∈ schema.nodes.map (·.id) := by
  obtain ⟨k, found⟩ := List.getElem?_of_mem onPath
  obtain ⟨above, among, _, rfl⟩ := exists_mem_nodes_of_getElem?_path member found
  exact List.mem_map.mpr ⟨above, among, rfl⟩

/-- No field on a path has the number of the root. -/
theorem IsAccepted.id_ne_rootId {schema : Schema} (accepted : schema.IsAccepted) {node : Node}
    (member : node ∈ schema.nodes) {label : Label} (onPath : label ∈ node.path) :
    label.id ≠ rootId := by
  intro root
  obtain ⟨k, found⟩ := List.getElem?_of_mem onPath
  obtain ⟨above, among, ends, rfl⟩ := exists_mem_nodes_of_getElem?_path member found
  have same : above = schema.root := accepted.eq_of_id_eq among List.mem_cons_self root
  rw [List.take_add_one, found, same] at ends
  exact List.append_ne_nil_of_right_ne_nil _ (List.cons_ne_nil _ []) ends.symm

/-- The nodes that have a path are those that have another number than the root. -/
theorem IsAccepted.path_ne_nil_iff {schema : Schema} (accepted : schema.IsAccepted) {node : Node}
    (member : node ∈ schema.nodes) : node.path ≠ [] ↔ node.id ≠ rootId := by
  constructor
  · intro field
    have onPath := List.mem_of_getLast? (getLast?_path_of_mem_nodes member field)
    exact accepted.id_ne_rootId member onPath
  · intro field none
    have root : schema.root ∈ schema.nodes := List.mem_cons_self
    rw [accepted.eq_of_path_eq member root none] at field
    exact field rfl

theorem IsAccepted.label_eq {schema : Schema} (accepted : schema.IsAccepted) {a b : Node}
    (first : a ∈ schema.nodes) (second : b ∈ schema.nodes) :
    ∀ x ∈ a.path, ∀ y ∈ b.path, x.id = y.id → x = y := by
  intro x onFirst y onSecond same
  obtain ⟨i, atFirst⟩ := List.getElem?_of_mem onFirst
  obtain ⟨j, atSecond⟩ := List.getElem?_of_mem onSecond
  have ends := congrArg List.getLast? (accepted.take_path_eq first second atFirst atSecond same)
  rw [List.take_add_one, atFirst, List.take_add_one, atSecond, Option.toList_some, Option.toList_some,
    List.getLast?_concat, List.getLast?_concat] at ends
  exact Option.some.inj ends

theorem IsAccepted.commonRepetition_comm {schema : Schema} (accepted : schema.IsAccepted)
    {a b : Node} (first : a ∈ schema.nodes) (second : b ∈ schema.nodes) :
    a.commonRepetition b = b.commonRepetition a := by
  rw [Node.commonRepetition, Path.shared_comm (accepted.label_eq first second)]
  rfl

theorem IsAccepted.commonRepetition?_id {schema : Schema} (accepted : schema.IsAccepted)
    {a b : Node} (first : a ∈ schema.nodes) (second : b ∈ schema.nodes) :
    schema.commonRepetition? a.id b.id = some (a.commonRepetition b) := by
  unfold commonRepetition?
  rw [accepted.node?_id first, accepted.node?_id second]
  rfl

/-- A field lies on the path of a node exactly if its own path leads there. -/
theorem IsAccepted.id_mem_ids_iff {schema : Schema} (accepted : schema.IsAccepted) {a b : Node}
    (first : a ∈ schema.nodes) (second : b ∈ schema.nodes) (field : a.path ≠ []) :
    a.id ∈ Path.ids b.path ↔ a.path <+: b.path := by
  have last := getLast?_path_of_mem_nodes first field
  constructor
  · intro onPath
    obtain ⟨label, member, same⟩ := List.mem_map.mp onPath
    obtain ⟨j, found⟩ := List.getElem?_of_mem member
    rw [List.getLast?_eq_getElem?] at last
    have ends := accepted.take_path_eq first second last found same.symm
    rw [List.take_of_length_le (by omega)] at ends
    exact ends ▸ List.take_prefix _ _
  · intro leads
    exact List.mem_map_of_mem (leads.subset (List.mem_of_getLast? last))

/-- A field of one path lies on another path exactly if the paths share it. -/
theorem IsAccepted.mem_ids_iff {schema : Schema} (accepted : schema.IsAccepted) {a b : Node}
    (first : a ∈ schema.nodes) (second : b ∈ schema.nodes) {i : Nat} {x : Label}
    (atFirst : a.path[i]? = some x) :
    x.id ∈ Path.ids b.path ↔ i < (Path.shared a.path b.path).length := by
  have shared := Path.shared_isPrefix_left a.path b.path
  constructor
  · intro onSecond
    obtain ⟨y, member, same⟩ := List.mem_map.mp onSecond
    obtain ⟨j, atSecond⟩ := List.getElem?_of_mem member
    have ends := accepted.take_path_eq first second atFirst atSecond same.symm
    have common := Path.isPrefix_shared (List.take_prefix (i + 1) a.path)
      (ends ▸ List.take_prefix (j + 1) b.path)
    have inside := (List.getElem?_eq_some_iff.mp atFirst).1
    have lengths := common.length_le
    rw [List.length_take, Nat.min_eq_left inside] at lengths
    exact lengths
  · intro inside
    have found : (Path.shared a.path b.path)[i]? = some x := by
      rw [← atFirst, List.getElem?_eq_getElem inside, shared.getElem inside]
      exact (List.getElem?_eq_getElem _).symm
    have onSecond := List.mem_of_getElem? found
    rw [Path.shared_comm (accepted.label_eq first second)] at onSecond
    exact List.mem_map_of_mem ((Path.shared_isPrefix_left _ _).subset onSecond)

end Schema

end NestedColumns
