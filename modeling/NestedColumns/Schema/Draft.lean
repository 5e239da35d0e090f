/-
Drafts of schemas.

A draft is a tree of fields that has not been checked: names may clash, a leaf may have children and
a group none. `SchemaDraft.entries` numbers the fields depth first, and `SchemaDraft.finish` makes
the schema or reports what is wrong with the draft.
-/

import NestedColumns.Schema.NodeList

namespace NestedColumns

/-- A field that may still be given children. -/
structure FieldDraft where
  name : String
  cardinality : Cardinality
  type : Option ScalarType
  children : List FieldDraft

namespace FieldDraft

/-- A draft of a leaf. -/
def leaf (name : String) (cardinality : Cardinality) (type : ScalarType) : FieldDraft :=
  ⟨name, cardinality, some type, []⟩

/-- A draft of a group. -/
def group (name : String) (cardinality : Cardinality) (children : List FieldDraft) : FieldDraft :=
  ⟨name, cardinality, none, children⟩

/-- The draft with one more child at the end. -/
def addChild (draft child : FieldDraft) : FieldDraft :=
  { draft with children := draft.children ++ [child] }

/-- The field at the end of a way down through a list of fields; of fields with one name the first
is taken. -/
def find? : List String → List FieldDraft → Option FieldDraft
  | [], _ => none
  | [name], fields => fields.find? (·.name == name)
  | name :: rest, fields =>
    (fields.find? (·.name == name)).bind fun field => find? rest field.children

/-- The list of fields with the one at the end of a way down changed, if it is there. -/
def change (update : FieldDraft → FieldDraft) : List String → List FieldDraft → List FieldDraft
  | [], fields => fields
  | name :: rest, fields =>
    fields.modify (fields.findIdx (·.name == name)) fun field =>
      match rest with
      | [] => update field
      | _ => { field with children := change update rest field.children }

mutual

/-- The entries of a field and everything below it, depth first, when its number is `id`. -/
def entries (parent id : FieldId) : FieldDraft → List NodeEntry
  | ⟨name, cardinality, type, children⟩ =>
    ⟨name, cardinality, type, some parent⟩ :: entriesAll id (id + 1) children
termination_by structural draft => draft

/-- The entries of a list of siblings, when the first of them has number `id`. -/
def entriesAll (parent id : FieldId) : List FieldDraft → List NodeEntry
  | [] => []
  | draft :: drafts =>
    let here := draft.entries parent id
    here ++ entriesAll parent (id + here.length) drafts
termination_by structural drafts => drafts

end

end FieldDraft

/-- A record type that may still be given fields. -/
structure SchemaDraft where
  name : String
  fields : List FieldDraft

namespace SchemaDraft

/-- The draft with one more top-level field at the end. -/
def addField (draft : SchemaDraft) (field : FieldDraft) : SchemaDraft :=
  { draft with fields := draft.fields ++ [field] }

/-- The draft with one more child for the field at the end of a way down. -/
def addChildAt (draft : SchemaDraft) (way : List String) (child : FieldDraft) : SchemaDraft :=
  { draft with fields := FieldDraft.change (·.addChild child) way draft.fields }

/-- The field at the end of a way down. -/
def find? (draft : SchemaDraft) (way : List String) : Option FieldDraft :=
  FieldDraft.find? way draft.fields

/-- The draft as a parent-linked list: the root, then the fields depth first. -/
def entries (draft : SchemaDraft) : List NodeEntry :=
  NodeEntry.root draft.name :: FieldDraft.entriesAll rootId 1 draft.fields

/-- The parent-linked list, in which the number of every entry has 32 bits. A longer list fails at the
first entry for which there is no number. -/
def nodeList (draft : SchemaDraft) : Except Fault (List NodeEntry) :=
  if draft.entries.length ≤ UInt32.size then .ok draft.entries
  else .error (.invalidArgument (.fieldNumberTooLarge UInt32.size))

/-- The schema of a draft that is well formed. -/
def finish (draft : SchemaDraft) : Except Fault Schema := do
  Schema.ofEntries (← draft.nodeList)

end SchemaDraft

end NestedColumns
