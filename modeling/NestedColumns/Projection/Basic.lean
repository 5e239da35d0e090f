/-
Projections: selections of leaves of a schema.

A projection is a selection of at least one leaf, kept in depth-first order whatever the order it
was asked for in. It covers the fields on the way to a selected leaf, the leaf included.
-/

import NestedColumns.Schema.Basic

namespace NestedColumns

/-- Selected leaves in depth-first order. -/
structure Projection where
  fields : List FieldId
  deriving DecidableEq

namespace Projection

/-- A number is that of a leaf. -/
def checkLeaf (schema : Schema) (id : FieldId) : Except Fault Unit := do
  let node ← schema.resolve id
  if node.isLeaf then .ok () else .error (.schemaMismatch node.pathText .groupProjected)

/-- Every given number is that of a leaf. -/
def checkLeaves (schema : Schema) (ids : List FieldId) : Except Fault Unit :=
  ids.forM (checkLeaf schema)

/-- The given leaves in depth-first order. -/
def inLeafOrder (schema : Schema) (ids : List FieldId) : List FieldId :=
  ids.mergeSort fun a b => (schema.leafOrdinal? a).getD 0 ≤ (schema.leafOrdinal? b).getD 0

/-- The first number that is followed by itself. -/
def twice? : List FieldId → Option FieldId
  | first :: second :: rest =>
    if first = second then some first else twice? (second :: rest)
  | _ => none

/-- The selection of leaves in depth-first order, in which a leaf that is given more than once stands
next to itself. The first such leaf is reported. -/
def ofOrdered (schema : Schema) (ordered : List FieldId) : Except Fault Projection :=
  match twice? ordered with
  | some id => do
    let leaf ← schema.resolve id
    .error (.schemaMismatch leaf.pathText .projectedTwice)
  | none => .ok ⟨ordered⟩

/-- The selection of the leaves with the given numbers: at least one, and each once. -/
def ofIds (schema : Schema) (ids : List FieldId) : Except Fault Projection := do
  checkLeaves schema ids
  if ids.isEmpty then .error (.invalidArgument .noFieldsSelected)
  ofOrdered schema (inLeafOrder schema ids)

/-- The number of the field with the given dotted path. -/
def idOfPath (schema : Schema) (path : String) : Except Fault FieldId :=
  match schema.findPath? path with
  | some node => .ok node.id
  | none => .error (.schemaMismatch path .noSuchField)

/-- The selection of the leaves with the given dotted paths. -/
def ofPaths (schema : Schema) (paths : List String) : Except Fault Projection := do
  ofIds schema (← paths.mapM (idOfPath schema))

/-- The selection of every leaf. -/
def all (schema : Schema) : Projection :=
  ⟨schema.leafIds⟩

/-- How many leaves are selected. -/
def size (projection : Projection) : Nat :=
  projection.fields.length

def isEmpty (projection : Projection) : Bool :=
  projection.fields.isEmpty

def contains (projection : Projection) (id : FieldId) : Bool :=
  projection.fields.contains id

/-- The position of a leaf in the selection. -/
def position? (projection : Projection) (id : FieldId) : Option Nat :=
  projection.fields.idxOf? id

/-- A node is the root, or stands on the path of a selected leaf. -/
def covers (projection : Projection) (schema : Schema) (id : FieldId) : Bool :=
  id == rootId || projection.fields.any fun leaf =>
    match schema.node? leaf with
    | some node => node.ancestry.contains id
    | none => false

end Projection

end NestedColumns
