/-
Staging does not depend on the numbers of nodes.

A record is taken apart by walking down the tree of fields, which finds values by their names and
columns by counting leaves; nothing asks for a number (`Field.shred_renumber`). So a list of nodes and
the same list in another order are accepted alike, and their schemas differ in nothing but numbers
(`Schema.agree_of_renumbers`): they stage the same rows in the same columns, or refuse a record with
the same fault.
-/

import Mathlib.GroupTheory.Perm.List
import NestedColumns.Proofs.Schema.Derived
import NestedColumns.Proofs.Schema.Renumbering
import NestedColumns.Striping.Staged

namespace NestedColumns

variable {number : FieldId → FieldId}

namespace Field

/-! ### Trees with other numbers -/

theorem renumber_group (label : Label) (children : List Field) :
    (Field.group label children).renumber number =
      .group (label.renumber number) (children.map (renumber number)) := by
  unfold renumber
  rw [keep, keepAll_eq, List.filter_eq_self.mpr fun _ _ => rfl]

theorem label_renumber (field : Field) :
    (field.renumber number).label = field.label.renumber number :=
  label_keep field

mutual

theorem leafCount_renumber : ∀ field : Field, (field.renumber number).leafCount = field.leafCount
  | .leaf label type => rfl
  | .group label children => by
    rw [renumber_group, leafCount, leafCount]
    exact leafCounts_renumber children

theorem leafCounts_renumber : ∀ fields : List Field,
    leafCounts (fields.map (renumber number)) = leafCounts fields
  | [] => rfl
  | field :: fields => by
    rw [List.map_cons, leafCounts, leafCounts, leafCount_renumber field, leafCounts_renumber fields]

end

mutual

theorem spread_renumber (row : Row) (column : Nat) :
    ∀ field : Field, (field.renumber number).spread row column = field.spread row column
  | .leaf label type => rfl
  | .group label children => by
    rw [renumber_group, spread, spread]
    exact spreadAll_renumber row column children

theorem spreadAll_renumber (row : Row) (column : Nat) : ∀ fields : List Field,
    spreadAll row column (fields.map (renumber number)) = spreadAll row column fields
  | [] => rfl
  | field :: fields => by
    rw [List.map_cons, spreadAll, spreadAll, spread_renumber row column field, leafCount_renumber,
      spreadAll_renumber row _ fields]

end

theorem unknownName?_renumber (fields : List Field) (record : Record) :
    unknownName? (fields.map (renumber number)) record = unknownName? fields record := by
  have names : ∀ name, ((fields.map (renumber number)).any (·.label.name == name)) =
      fields.any (·.label.name == name) := by
    intro name
    rw [List.any_map]
    exact congrArg fields.any (funext fun field => by
      rw [Function.comp_apply, label_renumber, Label.renumber])
  unfold unknownName?
  simp only [names]

theorem nameUnder_renumber (path : Path) (name : String) :
    nameUnder (Path.renumber number path) name = nameUnder path name := by
  unfold nameUnder
  rw [Path.text_renumber, Path.renumber, List.isEmpty_map]

end Field

/-! ### Shredding -/

theorem Node.Keeps.writeValue_eq {covered : FieldId → Bool} {node kept : Node}
    (keeps : node.Keeps covered number kept) (same : kept.column = node.column) (value : Value)
    (level : Level) : kept.writeValue value level = node.writeValue value level := by
  unfold Node.writeValue
  rw [keeps.type?, keeps.pathText, keeps.maxDefinition, same]

theorem Path.absentLevel_renumber (path : Path) :
    absentLevel (renumber number path) = absentLevel path := by
  unfold absentLevel
  rw [definitionLevel_renumber]

namespace Field

theorem writeNull_renumber (path : Path) (column : Nat) (field : Field) (level level' : Level) :
    Node.writeNull ⟨Path.renumber number path, column, field.renumber number⟩ level level' =
      Node.writeNull ⟨path, column, field⟩ level level' := by
  unfold Node.writeNull
  rw [spread_renumber]

mutual

/-- **Shredding does not look at numbers.** -/
theorem shred_renumber {path : Path} {column : Nat} {level : Level} :
    ∀ {field : Field} {value : Value},
      (field.renumber number).shred (Path.renumber number path) column level value =
        field.shred path column level value
  | .leaf label type, .record record => by
    show Written.stop (.schemaMismatch (Path.text (Path.renumber number path)) _) = _
    rw [Path.text_renumber, shred]
  | .leaf label type, .scalar content => by
    have keeps : Node.Keeps (fun _ => true) number ⟨path, column, .leaf label type⟩
        ⟨Path.renumber number path, column, (Field.leaf label type).renumber number⟩ := ⟨rfl, rfl⟩
    rw [shred]
    exact keeps.writeValue_eq rfl _ _
  | .group label children, .scalar content => by
    have keeps : Node.Keeps (fun _ => true) number ⟨path, column, .group label children⟩
        ⟨Path.renumber number path, column, (Field.group label children).renumber number⟩ :=
      ⟨rfl, rfl⟩
    rw [shred, ← keeps.writeValue_eq rfl, renumber_group, shred]
  | .group label children, .record record => by
    rw [renumber_group, shred, shred, unknownName?_renumber]
    cases unknownName? children record with
    | some name =>
      dsimp only
      rw [nameUnder_renumber]
    | none => exact shredAll_renumber

theorem shredAll_renumber {path : Path} {level : Level} {record : Record} :
    ∀ {column : Nat} {fields : List Field},
      shredAll (Path.renumber number path) column level (fields.map (renumber number)) record =
        shredAll path column level fields record
  | column, [] => rfl
  | column, field :: fields => by
    have each : ∀ level value,
        (field.renumber number).shred (Path.renumber number (path ++ [field.label])) column level
          value = field.shred (path ++ [field.label]) column level value :=
      fun _ _ => shred_renumber
    rw [List.map_cons, shredAll, shredAll, label_renumber, ← Path.renumber_concat,
      leafCount_renumber, shredAll_renumber]
    simp only [each, Label.renumber, writeNull_renumber, Path.repetitionLevel_renumber,
      Path.text_renumber, Path.absentLevel_renumber]
    rfl

end

end Field

/-! ### Schemas that differ in their numbers -/

/-- What two nodes that differ in their numbers have in common. -/
structure Node.Matches (number : FieldId → FieldId) (node other : Node) : Prop where
  id : other.id = number node.id
  pathText : other.pathText = node.pathText
  maxRepetition : other.maxRepetition = node.maxRepetition
  maxDefinition : other.maxDefinition = node.maxDefinition
  depth : other.depth = node.depth
  ancestry : other.ancestry = node.ancestry.map number
  cardinality : other.cardinality = node.cardinality
  type? : other.type? = node.type?

theorem Node.Keeps.matches {covered : FieldId → Bool} {node kept : Node}
    (keeps : node.Keeps covered number kept) : node.Matches number kept where
  id := keeps.id
  pathText := keeps.pathText
  maxRepetition := keeps.maxRepetition
  maxDefinition := keeps.maxDefinition
  depth := by rw [Node.depth, keeps.path, Path.renumber, List.length_map]; rfl
  ancestry := keeps.ancestry
  cardinality := keeps.cardinality
  type? := keeps.type?

namespace Schema

/-- **Two schemas that differ in nothing but numbers.** -/
structure Agree (number : FieldId → FieldId) (schema other : Schema) : Prop where
  /-- The leaves stand at the same positions. -/
  leafIds : other.leafIds = schema.leafIds.map number
  nodes : ∀ id, Option.Rel (Node.Matches number) (schema.node? id) (other.node? (number id))
  /-- The same records are staged, as the same rows, and the same records are refused. -/
  stage : ∀ record, other.stage record = schema.stage record

variable {schema : Schema} {entries entries' : List NodeEntry}

theorem stage_renumber (fixed : number rootId = rootId) (schema : Schema)
    (leaves : (schema.renumber number).leafIds.length = schema.leafIds.length) (record : Record) :
    (schema.renumber number).stage record = schema.stage record := by
  have top : (schema.renumber number).root.field = schema.root.field.renumber number :=
    (root_keep schema fixed).field
  have shredded : (schema.renumber number).shred record = schema.shred record := by
    unfold shred
    rw [top]
    show Field.shred (Path.renumber number []) 0 0 _ _ = _
    exact Field.shred_renumber
  unfold stage columnCount
  rw [shredded, leaves]

/-- **The order of the list does not matter.** A list of nodes and the same list in another order
are accepted alike, and their schemas differ in nothing but numbers. -/
theorem agree_of_renumbers {number : Equiv.Perm FieldId}
    (renumbers : Renumbers number entries entries') :
    ((∃ schema, ofEntries entries = .ok schema) ↔ ∃ schema, ofEntries entries' = .ok schema) ∧
      ∀ schema other, ofEntries entries = .ok schema → ofEntries entries' = .ok other →
        Agree number schema other := by
  constructor
  · constructor
    · rintro ⟨schema, accepted⟩
      exact ⟨_, renumbers.ofEntries_eq accepted⟩
    · rintro ⟨schema, accepted⟩
      exact ⟨_, renumbers.symm.ofEntries_eq accepted⟩
  · intro schema other described described'
    obtain rfl : schema.renumber number = other :=
      Except.ok.inj ((renumbers.ofEntries_eq described).symm.trans described')
    have accepted : schema.IsAccepted := ⟨entries, described⟩
    have leaves := accepted.leafIds_renumber renumbers.number_root
    constructor
    case leafIds => exact leaves
    case nodes =>
      intro id
      have found := accepted.node?_renumber ⟨entries', described'⟩ renumbers.number_root id
      generalize schema.node? id = first at found ⊢
      generalize (schema.renumber number).node? (number id) = second at found ⊢
      cases found with
      | some keeps => exact .some keeps.matches
      | none => exact .none
    case stage =>
      exact stage_renumber renumbers.number_root schema (by rw [leaves, List.length_map])

/-- The order in which fields of documents stand before their groups. -/
def Sample.shuffle : Equiv.Perm FieldId :=
  List.formPerm [1, 5, 9, 8, 4, 2, 6, 7, 3]

theorem Sample.shuffle_eq_self {id : FieldId} (beyond : 10 ≤ id) : Sample.shuffle id = id := by
  refine List.formPerm_apply_of_notMem fun member => ?_
  have below : ∀ moved ∈ [1, 5, 9, 8, 4, 2, 6, 7, 3], moved < 10 := by decide
  exact absurd (below id member) (Nat.not_lt_of_le beyond)

theorem Sample.renumbers_shuffle :
    Renumbers Sample.shuffle Sample.documentDraft.entries Sample.shuffledDocument where
  number_root := by decide
  listed := by
    intro id
    by_cases inside : id < 10
    · revert id
      decide +kernel
    · have beyond := Nat.le_of_not_lt inside
      rw [Sample.shuffle_eq_self beyond, List.getElem?_eq_none beyond,
        List.getElem?_eq_none (by exact beyond)]
      rfl
  siblings := by
    have inside : ∀ {id parent}, Sample.documentDraft.entries[id]?.bind (·.parent) = some parent →
        id < 10 := by
      intro id parent linked
      obtain ⟨entry, listed, _⟩ := Option.bind_eq_some_iff.mp linked
      exact (List.getElem?_eq_some_iff.mp listed).1
    have table : ∀ a < 10, ∀ b < 10, Sample.documentDraft.entries[a]?.bind (·.parent) =
        Sample.documentDraft.entries[b]?.bind (·.parent) → a < b →
        a = rootId ∨ Sample.shuffle a < Sample.shuffle b := by
      decide +kernel
    intro a b parent first second before
    rcases table a (inside first) b (inside second) (first.trans second.symm) before with rfl | less
    · cases first
    · exact less

/-- Documents are staged alike whether or not their fields stand before their groups. -/
theorem agree_shuffledDocument :
    Renumbers Sample.shuffle Sample.documentDraft.entries Sample.shuffledDocument ∧
      ∃ other, ofEntries Sample.documentDraft.entries = .ok Sample.documentType ∧
        ofEntries Sample.shuffledDocument = .ok other ∧ other.leafIds = [5, 1, 2, 3, 4, 8] ∧
        other.stage Sample.largeDocument = Sample.documentType.stage Sample.largeDocument := by
  obtain ⟨alike, agree⟩ := agree_of_renumbers Sample.renumbers_shuffle
  have accepted : ofEntries Sample.documentDraft.entries = .ok Sample.documentType := rfl
  obtain ⟨other, accepted'⟩ := alike.mp ⟨_, accepted⟩
  have same := agree _ _ accepted accepted'
  exact ⟨Sample.renumbers_shuffle, other, accepted, accepted', same.leafIds, same.stage _⟩

end Schema

end NestedColumns
