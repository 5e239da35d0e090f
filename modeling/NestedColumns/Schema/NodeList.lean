/-
Schemas from parent-linked lists of nodes.

In such a list the position of an entry is its number and every entry but the first names its
parent; children stand in any order relative to their parents, siblings in the order of the list.
`Schema.ofEntries` accepts a list exactly if it describes a tree of well-named fields, and otherwise
reports the first thing that is wrong with it: first in the links, then in the tree from the root
down, then an entry that the tree does not reach.
-/

import NestedColumns.Schema.Basic

namespace NestedColumns

/-- One entry of a parent-linked list. -/
structure NodeEntry where
  name : String
  cardinality : Cardinality
  /-- The scalar type of a leaf. -/
  type : Option ScalarType
  /-- The number of the parent. -/
  parent : Option FieldId
  deriving DecidableEq

namespace NodeEntry

/-- The entry of the root of a record type. -/
def root (name : String) : NodeEntry :=
  ⟨name, .required, none, none⟩

end NodeEntry

namespace Schema

/-- Nodes may be nested this deep: levels have 16 bits. -/
def maxDepth : Nat := 65535

/-- Every entry but the first names another entry of the list as its parent. -/
def checkParents (count : Nat) (entries : List (NodeEntry × FieldId)) :
    Except ConfigurationReason Unit :=
  entries.forM fun (entry, id) =>
    match entry.parent with
    | none => .error (.noParent id entry.name)
    | some parent =>
      if count ≤ parent then .error (.danglingParent id entry.name parent)
      else if parent = id then .error (.ownParent id entry.name)
      else .ok ()

/-- The entries whose parent has the given number, in the order of the list. -/
def childEntries (entries : List (NodeEntry × FieldId)) (id : FieldId) :
    List (NodeEntry × FieldId) :=
  entries.filter fun (entry, _) => entry.parent = some id

/-- The names of siblings are words without a dot, each used once; `taken` are those used already.
-/
def checkNames (parent : String) (taken : List String) :
    List String → Except ConfigurationReason Unit
  | [] => .ok ()
  | name :: names =>
    if name.isEmpty || name.toList.contains '.' then .error (.invalidName name parent)
    else if taken.contains name then .error (.duplicateName name parent)
    else checkNames parent (name :: taken) names

/-- The children of an entry, well named, and present exactly if it has no scalar type. -/
def checkedChildren (entries : List (NodeEntry × FieldId)) (entry : NodeEntry) (id : FieldId) :
    Except ConfigurationReason (List (NodeEntry × FieldId)) := do
  let children := childEntries entries id
  checkNames entry.name [] (children.map (·.1.name))
  match entry.type, children with
  | some _, _ :: _ => .error (.leafWithChildren entry.name)
  | none, [] => .error (.groupWithoutChildren entry.name)
  | _, _ => .ok children

/-- The field that an entry describes, with the given fields below it. -/
def fieldOfEntry (entry : NodeEntry) (id : FieldId) (children : List Field) : Field :=
  let label : Label := ⟨id, entry.name, entry.cardinality⟩
  match entry.type with
  | some type => .leaf label type
  | none => .group label children

/-- The fields below an entry. At most `room` levels may lie below it; the entry itself is refused
if it stands one level deeper than that allows. -/
def grow (entries : List (NodeEntry × FieldId)) (room : Nat) (entry : NodeEntry) (id : FieldId) :
    Except ConfigurationReason (List Field) := do
  let children ← checkedChildren entries entry id
  match room with
  | 0 => .error (.nestedTooDeeply entry.name)
  | room + 1 =>
    children.mapM fun (child, childId) => do
      let below ← grow entries room child childId
      return fieldOfEntry child childId below
termination_by structural room

/-- Every entry is a node of the tree. -/
def checkReached (reached : List FieldId) (entries : List (NodeEntry × FieldId)) :
    Except ConfigurationReason Unit :=
  entries.forM fun (entry, id) =>
    if reached.contains id then .ok () else .error (.unreachable id entry.name)

/-- The schema that a parent-linked list describes. -/
def ofEntries? : List NodeEntry → Except ConfigurationReason Schema
  | [] => .error .noRoot
  | root :: rest => do
    if root.parent.isSome || root.type.isSome then .error .malformedRoot
    if UInt32.size ≤ rest.length + 1 then .error .tooManyNodes
    let entries := rest.zipIdx 1
    checkParents (rest.length + 1) entries
    let fields ← grow entries (maxDepth + 1) root rootId
    let schema : Schema := ⟨root.name, fields⟩
    checkReached (schema.nodes.map (·.id)) entries
    return schema

/-- The schema that a parent-linked list describes. -/
def ofEntries (entries : List NodeEntry) : Except Fault Schema :=
  (ofEntries? entries).mapError .configuration

end Schema

end NestedColumns
