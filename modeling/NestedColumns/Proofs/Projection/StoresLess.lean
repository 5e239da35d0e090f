/-
Projecting equals having stored less.

A projection of a record type can be taken for a record type of its own, whose list of nodes is that
of the covered nodes. Then three things that know nothing of each other agree (`IsOf.storesLess`):

* the nodes keep their names, their types and their levels;
* a record that is taken apart and read by a projection, and an erased record that is taken apart by
  the smaller type, have the same columns (`rowsAt_reduced`);
* the machine of the projection is the machine of the smaller type, up to the numbers of leaves
  (`Machine.ofLeaves_renumber`), because it depends on nothing but the repetition levels that leaves
  share.
-/

import NestedColumns.Proofs.Machine.Targets
import NestedColumns.Proofs.Projection.Reduced

namespace NestedColumns

variable {covered : FieldId → Bool} {number : FieldId → FieldId}

/-! ### The machine -/

namespace Machine

/-- The state with new numbers. -/
def State.renumber (number : FieldId → FieldId) (state : State) : State :=
  { state with field := number state.field, targets := state.targets.map (Option.map number) }

/-- The machine with new numbers. -/
def renumber (number : FieldId → FieldId) (machine : Machine) : Machine :=
  ⟨machine.states.map (State.renumber number)⟩

end Machine

/-- A node all of whose path is covered, and the same node of the smaller tree. -/
structure Node.KeepsPath (covered : FieldId → Bool) (number : FieldId → FieldId) (node kept : Node) :
    Prop extends Node.Keeps covered number node kept where
  covers : ∀ label ∈ node.path, covered label.id = true

section Machine

variable (separates : Separates covered number) {node kept : Node} {before before' : List Node}

include separates

/-- Nodes share the levels that they shared before. -/
theorem Node.KeepsPath.commonRepetition {other other' : Node}
    (keeps : node.KeepsPath covered number kept) (keeps' : other.KeepsPath covered number other') :
    kept.commonRepetition other' = node.commonRepetition other := by
  unfold Node.commonRepetition
  rw [keeps.path, keeps'.path, Path.shared_renumber, Path.repetitionLevel_renumber]
  exact fun a onPath b _ same => separates a.id b.id (keeps.covers a onPath) same

namespace Machine

theorem backTarget?_renumber {barrier level : Level} (keeps : node.KeepsPath covered number kept)
    (pairs : List.Forall₂ (Node.KeepsPath covered number) before before') :
    backTarget? before' kept barrier level = (backTarget? before node barrier level).map number := by
  unfold backTarget?
  induction pairs with
  | nil => rfl
  | @cons earlier earlier' before before' here _ ih =>
    have shares : earlier'.commonRepetition kept = earlier.commonRepetition node :=
      here.commonRepetition separates keeps
    rw [List.find?_cons, List.find?_cons, here.maxRepetition, shares]
    cases decide (barrier < earlier.maxRepetition) && earlier.commonRepetition node == level with
    | false => exact ih
    | true => exact congrArg some (here.id)

theorem restart_renumber {barrier level : Level} (keeps : node.KeepsPath covered number kept)
    (pairs : List.Forall₂ (Node.KeepsPath covered number) before before') :
    restart before' kept barrier level = number (restart before node barrier level) := by
  have targets : backTarget? before' kept barrier =
      Option.map number ∘ backTarget? before node barrier := by
    funext level
    exact backTarget?_renumber separates keeps pairs
  unfold restart
  rw [targets, keeps.maxRepetition, keeps.id, ← List.map_findSome?, Option.getD_map]

theorem stateOf_renumber {after after' : List Node} (keeps : node.KeepsPath covered number kept)
    (earlier : List.Forall₂ (Node.KeepsPath covered number) before before')
    (later : List.Forall₂ (Node.KeepsPath covered number) after after') :
    stateOf before' kept after'.head? = (stateOf before node after.head?).renumber number := by
  have next : after'.head?.map (·.id) = (after.head?.map (·.id)).map number := by
    cases later with
    | nil => rfl
    | cons here _ => exact congrArg some (here.id)
  have limit : barrier kept after'.head? = barrier node after.head? := by
    cases later with
    | nil => rfl
    | cons here _ => exact keeps.commonRepetition separates here
  unfold stateOf State.renumber
  rw [keeps.id, keeps.pathText, keeps.maxRepetition, limit, next, List.map_map]
  refine congrArg (State.mk _ _) (List.map_congr_left fun level _ => ?_)
  dsimp only [Function.comp_apply]
  split
  · rfl
  · rw [restart_renumber separates keeps earlier]
    rfl

theorem statesAfter_renumber {nodes nodes' : List Node}
    (earlier : List.Forall₂ (Node.KeepsPath covered number) before before')
    (pairs : List.Forall₂ (Node.KeepsPath covered number) nodes nodes') :
    statesAfter before' nodes' = (statesAfter before nodes).map (State.renumber number) := by
  induction pairs generalizing before before' with
  | nil => rfl
  | cons here later ih =>
    rw [statesAfter, statesAfter, List.map_cons, stateOf_renumber separates here earlier later,
      ih (List.rel_append earlier (.cons here .nil))]

/-- **The machine of the smaller tree is that of the selected leaves**, with new numbers. -/
theorem ofLeaves_renumber {nodes nodes' : List Node}
    (pairs : List.Forall₂ (Node.KeepsPath covered number) nodes nodes') :
    ofLeaves nodes' = (ofLeaves nodes).renumber number :=
  congrArg Machine.mk (statesAfter_renumber separates .nil pairs)

end Machine

end Machine

/-! ### Leaves and their rows -/

namespace Projection

variable {schema : Schema} {projection : Projection}

theorem selected_all (schema : Schema) : (all schema).selected schema = schema.leaves :=
  List.filter_eq_self.mpr fun _ member =>
    List.contains_iff_mem.mpr (List.mem_map_of_mem member)

/-- A leaf is covered exactly if it is selected. -/
theorem IsOf.covers_leaf_iff (accepted : schema.IsAccepted) (own : projection.IsOf schema)
    {leaf : Node} (member : leaf ∈ schema.leaves) :
    projection.covers schema leaf.id = true ↔ projection.contains leaf.id = true := by
  obtain ⟨among, isLeaf⟩ := List.mem_filter.mp member
  have only : leaf.leaves = [leaf] := by
    obtain ⟨path, column, below⟩ := leaf
    cases below with
    | leaf label type => rfl
    | group label children => cases isLeaf
  rw [own.covers_iff accepted among (Schema.path_ne_nil_of_mem_leaves member), only]
  simp

theorem IsOf.filter_leaves (accepted : schema.IsAccepted) (own : projection.IsOf schema) :
    (schema.nodes.filter fun node => projection.covers schema node.id).filter (·.isLeaf) =
      projection.selected schema := by
  unfold selected Schema.leaves
  rw [List.filter_filter, List.filter_filter]
  refine List.filter_congr fun node among => ?_
  by_cases isLeaf : node.isLeaf = true
  · have same := own.covers_leaf_iff accepted (List.mem_filter.mpr ⟨among, isLeaf⟩)
    rw [isLeaf, Bool.true_and, Bool.and_true]
    exact Bool.eq_iff_iff.mpr same
  · rw [Bool.not_eq_true] at isLeaf
    rw [isLeaf, Bool.false_and, Bool.and_false]

/-- **The leaves of the smaller schema are the selected leaves**, in order. -/
theorem IsOf.forall₂_leaves (accepted : schema.IsAccepted) (own : projection.IsOf schema) :
    List.Forall₂ (Node.KeepsPath (projection.covers schema) (projection.renumber schema))
      (projection.selected schema) (projection.reduced schema).leaves := by
  have leaves := List.rel_filter (p := (·.isLeaf)) (q := (·.isLeaf))
    (fun node kept keeps => by dsimp only; rw [keeps.isLeaf]) (own.forall₂_nodes accepted)
  rw [own.filter_leaves accepted] at leaves
  refine ((List.forall₂_and_left _ _).mpr ⟨fun leaf member => ?_, leaves⟩).imp
    fun leaf kept both => ⟨both.2, both.1⟩
  exact fun label onPath =>
    (own.covers_eq_true accepted).mpr (.inr ⟨leaf, member, List.mem_map_of_mem onPath⟩)

/-- The smaller schema takes what erasure leaves of a record that the schema takes. -/
theorem admits_reduced (accepted : schema.IsAccepted) {record : Record}
    (admitted : schema.Admits record) :
    (projection.reduced schema).Admits (projection.erase schema record) := by
  have kept : (schema.root.field.keep (projection.covers schema)
      (projection.renumber schema)).Admits _ := Field.admits_keep accepted.wellFormed admitted
  rw [← (Schema.root_keep schema renumber_rootId).field] at kept
  exact kept

/-- **The rows of a selected leaf** are the same in both schemas. -/
theorem rowsAt_reduced (accepted : schema.IsAccepted) {leaf kept : Node}
    (member : leaf ∈ projection.selected schema)
    (member' : kept ∈ (projection.reduced schema).leaves)
    (keeps : leaf.KeepsPath (projection.covers schema) (projection.renumber schema) kept)
    (record : Record) :
    rowsAt kept.column ((projection.reduced schema).visits (projection.erase schema record)) =
      rowsAt leaf.column (schema.visits record) := by
  have isLeaf : leaf ∈ schema.leaves := List.mem_of_mem_filter member
  obtain ⟨type, typed⟩ := leaf.exists_type (List.mem_filter.mp isLeaf).2
  obtain ⟨path, ends, reaches⟩ := Field.exists_reaches_of_mem_leavesAll isLeaf typed keeps.covers
  obtain rfl : leaf.path = path := ends
  have stripes : rowsAt kept.column
      ((projection.reduced schema).visits (projection.erase schema record)) =
        stripe [] kept.path 0 (.record (projection.erase schema record)) :=
    Field.rowsAt_visitsAll 0 _ member' rfl
  rw [keeps.path] at stripes
  cases accepted.wellFormed with
  | group _ _ named _ each =>
    exact stripes.trans ((Field.stripe_eraseFields reaches each named).trans
      (Field.rowsAt_visitsAll 0 record isLeaf rfl).symm)

/-! ### Storing less -/

end Projection

/-- A node of a record type, and the same node of a smaller one. -/
structure Node.IsCopy (number : FieldId → FieldId) (node copy : Node) : Prop where
  id : copy.id = number node.id
  name : copy.name = node.name
  cardinality : copy.cardinality = node.cardinality
  type? : copy.type? = node.type?
  ancestry : copy.ancestry = node.ancestry.map number
  maxRepetition : copy.maxRepetition = node.maxRepetition
  maxDefinition : copy.maxDefinition = node.maxDefinition

theorem Node.Keeps.isCopy {node kept : Node} (keeps : node.Keeps covered number kept) :
    node.IsCopy number kept where
  id := keeps.id
  name := keeps.name
  cardinality := keeps.cardinality
  type? := keeps.type?
  ancestry := keeps.ancestry
  maxRepetition := keeps.maxRepetition
  maxDefinition := keeps.maxDefinition

namespace Projection

variable {schema : Schema} {projection : Projection}

/-- **Using a projection of a record type equals using the smaller record type** `reduced`, whose
nodes are numbered by their positions among the covered ones. -/
structure StoresLess (projection : Projection) (schema reduced : Schema) : Prop where
  /-- The nodes of the smaller type are the covered nodes, with the same levels. -/
  nodes : List.Forall₂ (Node.IsCopy (projection.renumber schema))
    (schema.nodes.filter fun node => projection.covers schema node.id) reduced.nodes
  /-- An erased record has the columns of the record that the projection selects, in its order. -/
  staged : ∀ record staged, schema.stage record = .ok staged →
    ∃ kept, reduced.stage (projection.erase schema record) = .ok kept ∧
      kept.columns.map some =
        projection.fields.map fun field => (schema.leafOrdinal? field).bind (staged.columns[·]?)
  /-- The machine of the projection is that of all leaves of the smaller type. -/
  machine : ∃ machine, Machine.ofProjection schema projection = .ok machine ∧
    Machine.ofProjection reduced (all reduced) =
      .ok (machine.renumber (projection.renumber schema))

theorem IsOf.columns_reduced (accepted : schema.IsAccepted) (own : projection.IsOf schema)
    {record : Record} {staged : StagedRecord} (taken : schema.stage record = .ok staged) :
    ∃ kept, (projection.reduced schema).stage (projection.erase schema record) = .ok kept ∧
      kept.columns.map some =
        projection.fields.map fun field => (schema.leafOrdinal? field).bind (staged.columns[·]?) := by
  obtain ⟨admitted, rfl⟩ := Schema.stage_eq_ok_iff.mp taken
  refine ⟨_, Schema.stage_eq_ok (admits_reduced accepted admitted), ?_⟩
  rw [own.fields_eq accepted, List.map_map, List.map_map, ← List.forall₂_eq_eq_eq,
    List.forall₂_map_left_iff, List.forall₂_map_right_iff]
  refine List.Forall₂.flip ((forall₂_with_mem (own.forall₂_leaves accepted)).imp ?_)
  rintro leaf kept ⟨member, member', keeps⟩
  have found := Schema.leaves_getElem?_column (List.mem_of_mem_filter member)
  have ordinal : schema.leafOrdinal? leaf.id = some leaf.column :=
    Machine.idxOf?_map_id accepted.nodup_leafIds found
  show some (rowsAt kept.column _) = (schema.leafOrdinal? leaf.id).bind _
  rw [ordinal, Option.bind_some, List.getElem?_map, found, Option.map_some,
    rowsAt_reduced accepted member member' keeps]

/-- **Projecting equals having stored less.** The nodes that a projection covers are an accepted list
of nodes, and the record type that they describe stores and reads what the projection does. -/
theorem IsOf.storesLess (accepted : schema.IsAccepted) (own : projection.IsOf schema) :
    ∃ reduced, Schema.ofEntries (projection.entries schema) = .ok reduced ∧
      projection.StoresLess schema reduced := by
  have described := own.ofEntries_entries accepted
  refine ⟨projection.reduced schema, described, ?_, ?_, ?_⟩
  · exact (own.forall₂_nodes accepted).imp fun node kept keeps => keeps.isCopy
  · exact fun record staged taken => own.columns_reduced accepted taken
  · refine ⟨_, Machine.ofProjection_eq accepted own, ?_⟩
    obtain ⟨root, rest, describes⟩ := accepted.exists_describes
    rw [Machine.ofProjection_eq ⟨_, described⟩ .all, selected_all,
      Machine.ofLeaves_renumber (own.separates describes) (own.forall₂_leaves accepted)]

theorem storesLess_codes_and_countries :
    Sample.documentType.IsAccepted ∧ IsOf Sample.documentType ⟨[7, 8]⟩ ∧
      ∃ reduced, Schema.ofEntries (entries ⟨[7, 8]⟩ Sample.documentType) = .ok reduced ∧
        StoresLess ⟨[7, 8]⟩ Sample.documentType reduced := by
  have made : ofIds Sample.documentType [8, 7] = .ok ⟨[7, 8]⟩ :=
    (ofIds_eq_ok Sample.documentType_isAccepted).mpr (by decide +kernel)
  have own := IsOf.ofIds made
  exact ⟨Sample.documentType_isAccepted, own, own.storesLess Sample.documentType_isAccepted⟩

example : entries ⟨[7, 8]⟩ Sample.documentType =
    [ ⟨"Document", .required, none, none⟩,
      ⟨"Name", .repeated, none, some 0⟩,
      ⟨"Language", .repeated, none, some 1⟩,
      ⟨"Code", .required, some .string, some 2⟩,
      ⟨"Country", .optional, some .string, some 2⟩ ] := rfl

end Projection

end NestedColumns
