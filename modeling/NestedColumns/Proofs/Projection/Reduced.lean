/-
The schema of a projection.

`Projection.entries` lists the nodes that a projection covers, in the order of their numbers, each
with the new number of its parent. This list is accepted, and its schema is the tree that the
projection keeps (`Projection.IsOf.describes_reduced`).

The two trees grow side by side (`Schema.grow_kept`): below a covered entry the smaller tree has the
same entries but those that are not covered. For this the numbers of covered entries have to stay
apart (`Separates`), and a covered group must not lose all its children. The order of the new list
does not matter, as long as siblings stay in order (`Schema.Describes.keep`).
-/

import NestedColumns.Proofs.Projection.Kept
import NestedColumns.Proofs.Schema.Entries
import NestedColumns.Proofs.Schema.Trees

namespace NestedColumns

/-- The entry with a new number for its parent. -/
def NodeEntry.renumber (number : FieldId → FieldId) (entry : NodeEntry) : NodeEntry :=
  { entry with parent := entry.parent.map number }

/-- No two nodes of which one is covered get the same number. -/
def Separates (covered : FieldId → Bool) (number : FieldId → FieldId) : Prop :=
  ∀ a b, covered a = true → number a = number b → a = b

variable {covered : FieldId → Bool} {number : FieldId → FieldId}

/-! ### Spanned groups -/

theorem Field.Spanned.children {field : Field} (spanned : field.Spanned covered) :
    ∀ child ∈ field.children, child.Spanned covered := by
  cases spanned with
  | leaf label type => simp [Field.children]
  | group _ each => exact each

theorem Field.Spanned.exists_child {field : Field} (spanned : field.Spanned covered)
    (group : field.type? = none) (covers : covered field.label.id = true) :
    ∃ child ∈ field.children, covered child.label.id = true := by
  cases spanned with
  | leaf label type => cases group
  | group spans _ => exact spans.mp covers

/-! ### Growing side by side -/

namespace Schema

/-- The covered ones among numbered entries, with new numbers. -/
def keptEntries (covered : FieldId → Bool) (number : FieldId → FieldId)
    (entries : List (NodeEntry × FieldId)) : List (NodeEntry × FieldId) :=
  (entries.filter fun entry => covered entry.2).map fun entry =>
    (entry.1.renumber number, number entry.2)

variable {entries children : List (NodeEntry × FieldId)} {entry entry' : NodeEntry} {id : FieldId}
  {fields : List Field}

theorem childEntries_kept (separates : Separates covered number) (covers : covered id = true) :
    childEntries (keptEntries covered number entries) (number id) =
      keptEntries covered number (childEntries entries id) := by
  unfold childEntries keptEntries
  rw [List.filter_map, List.filter_filter, List.filter_filter]
  refine congrArg (List.map _) (List.filter_congr fun entry _ => ?_)
  have linked : (entry.1.renumber number).parent = some (number id) ↔ entry.1.parent = some id := by
    rw [NodeEntry.renumber, Option.map_eq_some_iff]
    constructor
    · rintro ⟨parent, linked, same⟩
      rw [linked, separates id parent covers same.symm]
    · exact fun linked => ⟨id, linked, rfl⟩
  rw [Bool.and_comm]
  exact congrArg (covered entry.2 && ·) (decide_eq_decide.mpr linked)

/-- The children of a covered entry that are left pass, if there are any for a group. -/
theorem checkedChildren_kept (separates : Separates covered number) (covers : covered id = true)
    (type : entry'.type = entry.type) (checked : checkedChildren entries entry id = .ok children)
    (inhabited : entry.type = none → keptEntries covered number children ≠ []) :
    checkedChildren (keptEntries covered number entries) entry' (number id) =
      .ok (keptEntries covered number children) := by
  obtain ⟨rfl, words, named, shape⟩ := checkedChildren_eq_ok.mp checked
  have names : (keptEntries covered number (childEntries entries id)).map (·.1.name) =
      ((childEntries entries id).filter fun entry => covered entry.2).map (·.1.name) := by
    rw [keptEntries, List.map_map]
    rfl
  have some : ((childEntries entries id).filter fun entry => covered entry.2).Sublist
      (childEntries entries id) := List.filter_sublist
  refine checkedChildren_eq_ok.mpr ⟨(childEntries_kept separates covers).symm, ?_, ?_, ?_⟩
  · rw [names]
    exact fun name member => words name ((some.map _).subset member)
  · rw [names]
    exact named.sublist (some.map _)
  · rw [type]
    refine ⟨inhabited, fun left => shape.mpr fun none => left ?_⟩
    rw [none]
    rfl

theorem keep_fieldOfEntry (entry : NodeEntry) (id : FieldId) (below : List Field) :
    (fieldOfEntry entry id below).keep covered number =
      fieldOfEntry (entry.renumber number) (number id) (Field.keepAll covered number below) := by
  unfold fieldOfEntry NodeEntry.renumber
  cases entry.type with
  | none => rw [Field.keep]; rfl
  | some type => rfl

/-- **A tree and the smaller tree grow side by side.** -/
theorem grow_kept (separates : Separates covered number) {room : Nat}
    (grown : grow entries room entry id = .ok fields) (covers : covered id = true)
    (spanned : ∀ field ∈ fields, field.Spanned covered)
    (spans : entry.type = none → ∃ field ∈ fields, covered field.label.id = true)
    (type : entry'.type = entry.type) :
    grow (keptEntries covered number entries) room entry' (number id) =
      .ok (Field.keepAll covered number fields) := by
  induction room generalizing entry entry' id fields with
  | zero => exact absurd grown grow_zero_ne_ok
  | succ room ih =>
    obtain ⟨children, checked, made⟩ := grow_succ_eq_ok.mp grown
    -- a field is covered exactly if its entry is, so the pairs that are left still are pairs
    have left := List.rel_filter (p := fun field => covered field.label.id)
      (q := fun child => covered child.2) (by
        rintro _ child ⟨below, _, rfl⟩
        dsimp only
        rw [label_fieldOfEntry]) made.flip
    refine grow_succ_eq_ok.mpr ⟨_, checkedChildren_kept separates covers type checked ?_, ?_⟩
    · intro group none
      obtain ⟨field, member, covers⟩ := spans group
      rw [keptEntries, List.map_eq_nil_iff] at none
      rw [none, List.forall₂_nil_right_iff] at left
      exact List.filter_eq_nil_iff.mp left field member covers
    · have each : ∀ field ∈ fields.filter fun field => covered field.label.id,
          field.Spanned covered ∧ covered field.label.id = true := by
        intro field member
        obtain ⟨among, covers⟩ := List.mem_filter.mp member
        exact ⟨spanned field among, covers⟩
      rw [Field.keepAll_eq]
      nth_rewrite 2 [keptEntries]
      rw [List.forall₂_map_left_iff, List.forall₂_map_right_iff]
      refine List.Forall₂.flip (((List.forall₂_and_left _ _).mpr ⟨each, left⟩).imp ?_)
      rintro _ child ⟨⟨spanned, covers⟩, below, grownBelow, rfl⟩
      rw [label_fieldOfEntry] at covers
      have inside := (grown_of_grow grownBelow).children_fieldOfEntry
      refine ⟨Field.keepAll covered number below, ?_, (keep_fieldOfEntry _ _ _).symm⟩
      refine ih grownBelow covers (inside ▸ spanned.children) (fun group => ?_) rfl
      rw [← inside]
      refine spanned.exists_child ((type?_fieldOfEntry _ _ _).trans group) ?_
      rw [label_fieldOfEntry]
      exact covers

/-! ### Schemas side by side -/

theorem checkedChildren_congr {entries' : List (NodeEntry × FieldId)}
    (same : ∀ id, childEntries entries id = childEntries entries' id) :
    checkedChildren entries entry id = checkedChildren entries' entry id := by
  unfold checkedChildren
  rw [same]

/-- A tree grows from the children that the entries have, wherever they stand in the list. -/
theorem grow_congr {entries' : List (NodeEntry × FieldId)} {room : Nat}
    (same : ∀ id, childEntries entries id = childEntries entries' id) :
    grow entries room entry id = grow entries' room entry id := by
  induction room generalizing entry id with
  | zero =>
    unfold grow
    rw [checkedChildren_congr same]
  | succ room ih =>
    unfold grow
    rw [checkedChildren_congr same]
    simp only [ih]

/-- The schema of the covered fields, under new numbers. -/
def keep (covered : FieldId → Bool) (number : FieldId → FieldId) (schema : Schema) : Schema where
  name := schema.name
  fields := Field.keepAll covered number schema.fields

/-- **A list with what another one keeps**: the covered entries under their new numbers, in any order
in which siblings stand as before. -/
structure KeepsEntries (covered : FieldId → Bool) (number : FieldId → FieldId) (root : NodeEntry)
    (rest : List NodeEntry) (root' : NodeEntry) (rest' : List NodeEntry) : Prop where
  separates : Separates covered number
  covers_root : covered rootId = true
  number_root : number rootId = rootId
  /-- With an entry its parent is covered. -/
  upward : ∀ {parent id}, IsParent (rest.zipIdx 1) parent id → covered id = true →
    covered parent = true
  parentless : root'.parent = none
  untyped : root'.type = none
  name : root'.name = root.name
  entries : (rest'.zipIdx 1).Perm (keptEntries covered number (rest.zipIdx 1))
  siblings : ∀ id, childEntries (rest'.zipIdx 1) id =
    childEntries (keptEntries covered number (rest.zipIdx 1)) id

section Keeps

variable {root root' : NodeEntry} {rest rest' : List NodeEntry} {schema : Schema}

theorem root_keep (schema : Schema) (fixed : number rootId = rootId) :
    schema.root.Keeps covered number (schema.keep covered number).root where
  path := rfl
  field := by
    unfold root
    rw [Field.keep, Label.renumber, fixed]
    rfl

/-- The nodes of the smaller schema are the covered nodes, in depth-first order. -/
theorem forall₂_nodes_keep (covers : covered rootId = true) (fixed : number rootId = rootId)
    (spanned : ∀ field ∈ schema.fields, field.Spanned covered) :
    List.Forall₂ (Node.Keeps covered number) (schema.nodes.filter (covered ·.id))
      (schema.keep covered number).nodes := by
  have nodes : schema.nodes = schema.root :: Field.walkAll [] 0 schema.fields := rfl
  rw [nodes, List.filter_cons_of_pos (by exact covers)]
  exact .cons (root_keep schema fixed) (Field.forall₂_walkAll spanned)

variable (keeps : KeepsEntries covered number root rest root' rest')

include keeps

theorem KeepsEntries.length_le : rest'.length ≤ rest.length := by
  have lengths := keeps.entries.length_eq
  rw [List.length_zipIdx, keptEntries, List.length_map] at lengths
  rw [lengths]
  exact (List.length_filter_le _ _).trans (by rw [List.length_zipIdx])

/-- The new numbers are positions in the new list. -/
theorem KeepsEntries.number_lt (inside : id < rest.length + 1) (covers : covered id = true) :
    number id < rest'.length + 1 := by
  by_cases top : id = rootId
  · rw [top, keeps.number_root]
    exact Nat.succ_pos _
  · have listed := (mem_zipIdx_iff root).mpr
      ⟨top, List.getElem?_eq_getElem (by exact inside : id < (root :: rest).length)⟩
    have kept : (NodeEntry.renumber number _, number id) ∈ keptEntries covered number (rest.zipIdx 1) :=
      List.mem_map.mpr ⟨_, List.mem_filter.mpr ⟨listed, covers⟩, rfl⟩
    have position := List.mem_map_of_mem (f := Prod.snd) (keeps.entries.mem_iff.mpr kept)
    rw [List.zipIdx_map_snd, List.mem_range'_1] at position
    lia

/-- **The kept entries are an accepted list**, if every covered group keeps a child. -/
theorem Describes.keep (describes : Describes root rest schema)
    (spanned : ∀ field ∈ schema.fields, field.Spanned covered)
    (spans : ∃ field ∈ schema.fields, covered field.label.id = true) :
    Describes root' rest' (schema.keep covered number) where
  parentless := keeps.parentless
  untyped := keeps.untyped
  count := Nat.lt_of_le_of_lt (Nat.succ_le_succ keeps.length_le) describes.count
  parents := by
    intro entry member
    obtain ⟨⟨old, id⟩, among, rfl⟩ := List.mem_map.mp (keeps.entries.mem_iff.mp member)
    obtain ⟨listed, covers⟩ := List.mem_filter.mp among
    obtain ⟨parent, linked, inside, differ⟩ := describes.parents _ listed
    have above := keeps.upward ⟨old, listed, linked⟩ covers
    refine ⟨number parent, congrArg (Option.map _) linked, keeps.number_lt inside above, ?_⟩
    exact fun same => differ (keeps.separates _ _ above same)
  name := describes.name.trans keeps.name.symm
  fields := by
    have type := keeps.untyped.trans describes.untyped.symm
    have grown := grow_kept keeps.separates describes.fields keeps.covers_root spanned
      (fun _ => spans) type
    rw [grow_congr keeps.siblings]
    rwa [keeps.number_root] at grown
  reached := by
    intro entry member
    obtain ⟨old, among, rfl⟩ := List.mem_map.mp (keeps.entries.mem_iff.mp member)
    obtain ⟨listed, covers⟩ := List.mem_filter.mp among
    obtain ⟨node, reached, numbered⟩ := List.mem_map.mp (describes.reached old listed)
    have kept : node ∈ schema.nodes.filter (covered ·.id) := by
      refine List.mem_filter.mpr ⟨reached, ?_⟩
      rw [numbered]
      exact covers
    obtain ⟨less, member, keeps⟩ := exists_of_mem_of_forall₂
      (forall₂_nodes_keep keeps.covers_root keeps.number_root spanned) kept
    refine List.mem_map.mpr ⟨less, member, ?_⟩
    rw [← numbered]
    exact keeps.id

end Keeps

end Schema

/-! ### The list of kept nodes -/

namespace Projection

/-- The nodes that a projection covers, in the order of their numbers. -/
def keptNodes (projection : Projection) (schema : Schema) : List Node :=
  (schema.root :: schema.fieldNodes).filter fun node => projection.covers schema node.id

/-- The position of a node among those that a projection covers. -/
def renumber (projection : Projection) (schema : Schema) (id : FieldId) : FieldId :=
  ((projection.keptNodes schema).map (·.id)).idxOf id

/-- The nodes that a projection covers, as a parent-linked list. -/
def entries (projection : Projection) (schema : Schema) : List NodeEntry :=
  (projection.keptNodes schema).map fun node => node.entry.renumber (projection.renumber schema)

/-- The schema of the covered fields. -/
def reduced (projection : Projection) (schema : Schema) : Schema where
  name := schema.name
  fields := Field.keepAll (projection.covers schema) (projection.renumber schema) schema.fields

variable {schema : Schema} {projection : Projection} {root : NodeEntry} {rest : List NodeEntry}
  {id parent : FieldId}

theorem covers_rootId : projection.covers schema rootId = true := rfl

theorem keptNodes_eq (projection : Projection) (schema : Schema) : projection.keptNodes schema =
    schema.root :: schema.fieldNodes.filter fun node => projection.covers schema node.id :=
  List.filter_cons_of_pos (by exact covers_rootId)

theorem renumber_rootId : projection.renumber schema rootId = rootId := by
  unfold renumber
  rw [keptNodes_eq]
  exact List.idxOf_cons_self

section Numbers

variable (describes : Schema.Describes root rest schema) (own : projection.IsOf schema)

include describes

theorem nodup_keptIds : ((projection.keptNodes schema).map (·.id)).Nodup := by
  have ids : ((schema.root :: schema.fieldNodes).map (·.id)).Nodup := by
    rw [List.map_cons, describes.map_id_fieldNodes]
    exact List.nodup_cons.mpr ⟨by simp [Schema.root, Node.id, Node.label, Field.label, rootId],
      List.nodup_range' 1⟩
  exact ids.sublist (List.filter_sublist.map _)

include own

/-- Every number that is covered is that of a kept node. -/
theorem IsOf.mem_keptIds (covers : projection.covers schema id = true) :
    id ∈ (projection.keptNodes schema).map (·.id) := by
  have accepted := describes.isAccepted
  rw [keptNodes_eq, List.map_cons, List.mem_cons]
  by_cases top : id = rootId
  · exact .inl top
  refine .inr ?_
  obtain ⟨leaf, selected, onPath⟩ := ((own.covers_eq_true accepted).mp covers).resolve_left top
  obtain ⟨label, here, rfl⟩ := List.mem_map.mp onPath
  have inside := describes.mem_ids_iff.mp
    (Schema.mem_ids_of_mem_path (mem_nodes_of_mem_selected selected) here)
  have listed : label.id ∈ schema.fieldNodes.map (·.id) := by
    rw [describes.map_id_fieldNodes, List.mem_range'_1]
    unfold rootId at top
    lia
  obtain ⟨field, among, numbered⟩ := List.mem_map.mp listed
  refine List.mem_map.mpr ⟨field, List.mem_filter.mpr ⟨among, ?_⟩, numbered⟩
  rw [numbered]
  exact covers

theorem IsOf.separates :
    Separates (projection.covers schema) (projection.renumber schema) :=
  fun _ _ covers same => (List.idxOf_inj (own.mem_keptIds describes covers)).mp same

/-- The parent of a covered node is covered. -/
theorem IsOf.covers_parent (isParent : Schema.IsParent (rest.zipIdx 1) parent id)
    (covers : projection.covers schema id = true) : projection.covers schema parent = true := by
  have accepted := describes.isAccepted
  have field : id ≠ rootId := by
    obtain ⟨entry, member, _⟩ := isParent
    exact (Schema.numbered_zipIdx rest).positive _ member
  obtain ⟨leaf, selected, onPath⟩ := ((own.covers_eq_true accepted).mp covers).resolve_left field
  obtain ⟨chain, _⟩ :=
    Schema.isChain_of_mem_nodes describes.grown (mem_nodes_of_mem_selected selected)
  obtain ⟨before, after, parts⟩ := List.append_of_mem onPath
  rw [parts, List.append_cons, ← List.cons_append] at chain
  obtain ⟨_, above, atEnd, link⟩ :=
    Schema.isParent_of_isChain (List.isChain_append.mp chain).1
  obtain rfl : above = parent := (Schema.numbered_zipIdx rest).parent_eq link isParent
  refine (own.covers_eq_true accepted).mpr ?_
  rcases List.mem_cons.mp (List.mem_of_getLast? atEnd) with top | between
  · exact .inl top
  · refine .inr ⟨leaf, selected, ?_⟩
    rw [parts]
    exact List.mem_append_left _ between

end Numbers

/-! ### The schema of the kept nodes -/

/-- At every depth a group of the schema is covered exactly if a field immediately below it is. -/
theorem IsOf.spanned (accepted : schema.IsAccepted) (own : projection.IsOf schema) :
    (∀ field ∈ schema.fields, field.Spanned (projection.covers schema)) ∧
      ∃ field ∈ schema.fields, projection.covers schema field.label.id = true := by
  have covers : ∀ node ∈ Field.walkAll [] 0 schema.fields,
      projection.covers schema node.id = true ↔
        ∃ leaf ∈ node.leaves, projection.contains leaf.id = true := by
    intro node below
    exact own.covers_iff accepted (List.mem_cons_of_mem _ below)
      (Field.path_ne_nil_of_mem_walkAll below)
  obtain ⟨each, spans⟩ := Field.spannedAll_of_walkAll covers
  refine ⟨each, spans.mp ?_⟩
  obtain ⟨leaf, member⟩ := List.exists_mem_of_ne_nil _ (own.selected_ne_nil accepted)
  obtain ⟨isLeaf, picked⟩ := List.mem_filter.mp member
  exact ⟨leaf, isLeaf, picked⟩

/-- **The nodes of the smaller schema are the covered nodes**, in depth-first order. -/
theorem IsOf.forall₂_nodes (accepted : schema.IsAccepted) (own : projection.IsOf schema) :
    List.Forall₂ (Node.Keeps (projection.covers schema) (projection.renumber schema))
      (schema.nodes.filter fun node => projection.covers schema node.id)
      (projection.reduced schema).nodes :=
  Schema.forall₂_nodes_keep covers_rootId renumber_rootId (own.spanned accepted).1

/-- Numbers by position are what looking up distinct keys gives, one further on. -/
theorem zipIdx_map_eq {α β : Type} {key : α → FieldId} {value : α → β} {first : FieldId}
    {kept : List α} (distinct : (first :: kept.map key).Nodup) :
    (kept.map value).zipIdx 1 =
      kept.map fun a => (value a, (first :: kept.map key).idxOf (key a)) := by
  refine List.ext_getElem (by simp) fun i inside inside' => ?_
  have within : i < kept.length := by simpa using inside'
  have position := distinct.idxOf_getElem (i + 1) (by simpa using within)
  rw [List.getElem_cons_succ, List.getElem_map] at position
  rw [List.getElem_zipIdx, List.getElem_map, List.getElem_map, position, Nat.add_comm]

section Described

variable (describes : Schema.Describes root rest schema)

include describes

theorem keptEntries_eq : Schema.keptEntries (projection.covers schema) (projection.renumber schema)
    (rest.zipIdx 1) = (schema.fieldNodes.filter fun node => projection.covers schema node.id).map
      fun node => (node.entry.renumber (projection.renumber schema),
        projection.renumber schema node.id) := by
  rw [← describes.map_fieldNodes, Schema.keptEntries, List.filter_map, List.map_map]
  rfl

theorem entries_eq : projection.entries schema =
    schema.root.entry.renumber (projection.renumber schema) ::
      (Schema.keptEntries (projection.covers schema) (projection.renumber schema)
        (rest.zipIdx 1)).map Prod.fst := by
  rw [keptEntries_eq describes, entries, keptNodes_eq, List.map_cons, List.map_map]
  rfl

/-- The new numbers are the positions in the new list. -/
theorem zipIdx_keptEntries :
    ((Schema.keptEntries (projection.covers schema) (projection.renumber schema)
      (rest.zipIdx 1)).map Prod.fst).zipIdx 1 =
        Schema.keptEntries (projection.covers schema) (projection.renumber schema)
          (rest.zipIdx 1) := by
  have distinct : ((projection.keptNodes schema).map (·.id)).Nodup := nodup_keptIds describes
  rw [keptNodes_eq, List.map_cons] at distinct
  rw [keptEntries_eq describes, List.map_map]
  refine (zipIdx_map_eq distinct).trans (List.map_congr_left fun node _ => ?_)
  unfold renumber
  rw [keptNodes_eq, List.map_cons]
  rfl

theorem IsOf.keepsEntries (own : projection.IsOf schema) :
    Schema.KeepsEntries (projection.covers schema) (projection.renumber schema) root rest
      (schema.root.entry.renumber (projection.renumber schema))
      ((Schema.keptEntries (projection.covers schema) (projection.renumber schema)
        (rest.zipIdx 1)).map Prod.fst) where
  separates := own.separates describes
  covers_root := covers_rootId
  number_root := renumber_rootId
  upward := own.covers_parent describes
  parentless := rfl
  untyped := rfl
  name := describes.name
  entries := .of_eq (zipIdx_keptEntries describes)
  siblings := fun _ => by rw [zipIdx_keptEntries describes]

/-- **The nodes that a projection covers are an accepted list**, and the tree that the projection keeps
is its schema. -/
theorem IsOf.describes_reduced (own : projection.IsOf schema) :
    Schema.Describes (schema.root.entry.renumber (projection.renumber schema))
      ((Schema.keptEntries (projection.covers schema) (projection.renumber schema)
        (rest.zipIdx 1)).map Prod.fst) (projection.reduced schema) := by
  obtain ⟨spanned, spans⟩ := own.spanned describes.isAccepted
  exact Schema.Describes.keep (own.keepsEntries describes) describes spanned spans

end Described

theorem IsOf.ofEntries_entries (accepted : schema.IsAccepted) (own : projection.IsOf schema) :
    Schema.ofEntries (projection.entries schema) = .ok (projection.reduced schema) := by
  obtain ⟨root, rest, describes⟩ := accepted.exists_describes
  exact Schema.ofEntries_eq_ok.mpr ⟨_, _, entries_eq describes, own.describes_reduced describes⟩

end Projection

end NestedColumns
