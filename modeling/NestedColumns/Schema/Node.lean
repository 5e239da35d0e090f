/-
Nodes: fields at their place in the schema.

A node is a field together with the path that leads to it and the number of leaves that stand before
it in depth-first order. For a leaf that number is its column. `Field.walk` lists the nodes of a
subtree depth first, every parent before its children.
-/

import NestedColumns.Schema.Tree

namespace NestedColumns

/-- A field at its place: `path` ends with the field itself (it is empty for the root), and `column`
counts the leaves before it. -/
structure Node where
  path : Path
  column : Nat
  field : Field

namespace Field

mutual

/-- The nodes at and below a field, depth first. -/
def walk (path : Path) (column : Nat) : Field → List Node
  | .leaf label type => [⟨path, column, .leaf label type⟩]
  | .group label children =>
    ⟨path, column, .group label children⟩ :: walkAll path column children
termination_by structural field => field

/-- The nodes at and below the given children of the node at `path`, depth first. -/
def walkAll (path : Path) (column : Nat) : List Field → List Node
  | [] => []
  | field :: fields =>
    field.walk (path ++ [field.label]) column ++ walkAll path (column + field.leafCount) fields
termination_by structural fields => fields

end

end Field

namespace Node

def label (node : Node) : Label := node.field.label

def id (node : Node) : FieldId := node.label.id

def name (node : Node) : String := node.label.name

def cardinality (node : Node) : Cardinality := node.label.cardinality

def type? (node : Node) : Option ScalarType := node.field.type?

def isLeaf (node : Node) : Bool := node.field.isLeaf

def isRoot (node : Node) : Bool := node.id == rootId

def isRepeated (node : Node) : Bool := node.cardinality.isRepeated

/-- The dotted name, empty for the root. -/
def pathText (node : Node) : String := Path.text node.path

/-- The numbers of the nodes from the top-level field down to this one. -/
def ancestry (node : Node) : List FieldId := Path.ids node.path

/-- The greatest repetition level of a row of this field. -/
def maxRepetition (node : Node) : Level := Path.repetitionLevel node.path

/-- The definition level of a present value of this field. -/
def maxDefinition (node : Node) : Level := Path.definitionLevel node.path

/-- How many fields the path has, required ones included. -/
def depth (node : Node) : Nat := node.path.length

/-- The number of the parent; the root has none. -/
def parentId? (node : Node) : Option FieldId :=
  if node.path.isEmpty then none else some (node.ancestry.dropLast.getLast?.getD rootId)

/-- The nodes of the fields immediately below, when they are `fields` and `column` leaves stand
before the first of them. -/
def childrenFrom (path : Path) : Nat → List Field → List Node
  | _, [] => []
  | column, field :: fields =>
    ⟨path ++ [field.label], column, field⟩ :: childrenFrom path (column + field.leafCount) fields

/-- The nodes immediately below a node, in order. -/
def children (node : Node) : List Node :=
  childrenFrom node.path node.column node.field.children

/-- The child of a node with the given name. -/
def child? (node : Node) (name : String) : Option Node :=
  node.children.find? (·.name == name)

/-- The nodes at and below a node, depth first. -/
def subtree (node : Node) : List Node :=
  node.field.walk node.path node.column

end Node

end NestedColumns
