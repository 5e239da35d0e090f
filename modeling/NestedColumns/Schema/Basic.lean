/-
Schemas.

A schema is a record type: a name and the top-level fields. All its nodes stand in one depth-first
list, `Schema.nodes`, which begins with the root; the leaves of that list are the columns of the
type in order. Nodes are looked up by number or by dotted path.
-/

import NestedColumns.Fault
import NestedColumns.Schema.Node

namespace NestedColumns

/-- A record type. -/
structure Schema where
  name : String
  fields : List Field

namespace Schema

/-- The root, a group that is not itself a field. -/
def root (schema : Schema) : Node :=
  ⟨[], 0, .group ⟨rootId, schema.name, .required⟩ schema.fields⟩

/-- All nodes in depth-first order, the root first. -/
def nodes (schema : Schema) : List Node :=
  schema.root.subtree

/-- How many nodes there are, the root included. -/
def size (schema : Schema) : Nat :=
  schema.nodes.length

/-- The leaves in depth-first order. -/
def leaves (schema : Schema) : List Node :=
  schema.nodes.filter (·.isLeaf)

/-- The numbers of the leaves in depth-first order. -/
def leafIds (schema : Schema) : List FieldId :=
  schema.leaves.map (·.id)

/-! ### Look-up -/

/-- The node with the given number. -/
def node? (schema : Schema) (id : FieldId) : Option Node :=
  schema.nodes.find? (·.id == id)

def contains (schema : Schema) (id : FieldId) : Bool :=
  (schema.node? id).isSome

/-- The node with the given number; an unknown number does not fit the schema. -/
def resolve (schema : Schema) (id : FieldId) : Except Fault Node :=
  match schema.node? id with
  | some node => .ok node
  | none => .error (.schemaMismatch (Fault.fieldNumber id) (.notInSchema schema.name))

/-- The nodes of all fields, in the order of their numbers. -/
def fieldNodes (schema : Schema) : List Node :=
  (List.range schema.size).tail.filterMap schema.node?

/-- The position of a leaf among the leaves. -/
def leafOrdinal? (schema : Schema) (id : FieldId) : Option Nat :=
  schema.leafIds.idxOf? id

/-- The field with the given dotted path. -/
def findPath? (schema : Schema) (path : String) : Option Node :=
  schema.nodes.tail.find? (·.pathText == path)

/-- The child of the given name of the node with the given number. -/
def findChild? (schema : Schema) (id : FieldId) (name : String) : Option Node :=
  (schema.node? id).bind (·.child? name)

/-- A field as faults name it: by its path, or by its number if it has none. -/
def fieldText (schema : Schema) (id : FieldId) : String :=
  match schema.node? id with
  | some node => node.pathText
  | none => Fault.fieldNumber id

end Schema

/-- A field number read from a count; it has 32 bits. -/
def fieldIdOfNat (number : Nat) : Except Fault FieldId :=
  if number < UInt32.size then .ok number
  else .error (.invalidArgument (.fieldNumberTooLarge number))

end NestedColumns
