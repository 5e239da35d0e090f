/-
How two fields of a schema lie to each other.

Two measures of what two fields share are kept apart. `commonRepetition` counts the repeated fields
on the part that their paths share, the fields themselves included. `commonAncestorPath` leads to
the deepest node strictly above both; a field compared with itself is its own common ancestor if it
is repeated, since two occurrences then stand in one list. The root is never a common ancestor.
-/

import NestedColumns.Schema.Basic

namespace NestedColumns

namespace Node

/-- The path to the common ancestor of two fields, empty if they share only the root. -/
def commonAncestorPath (a b : Node) : Path :=
  if a.id = b.id then (if a.isRepeated then a.path else a.path.dropLast)
  else Path.shared a.path.dropLast b.path.dropLast

/-- The common ancestor of two fields, if it is not the root. -/
def commonAncestor? (a b : Node) : Option Label :=
  (commonAncestorPath a b).getLast?

/-- The repetition level of the deepest field that the paths of two fields share. -/
def commonRepetition (a b : Node) : Level :=
  Path.repetitionLevel (Path.shared a.path b.path)

/-- The repeated field on the path of a node that owns a repetition level. -/
def repeatedAncestorAt? (node : Node) (level : Level) : Option Label :=
  (Path.ownerIndex level node.path).bind (node.path[·]?)

end Node

namespace Schema

/-! ### Questions about field numbers

The outer `Option` is `none` where a node has to be looked up and its number is unknown. -/

def ancestry? (schema : Schema) (id : FieldId) : Option (List FieldId) :=
  (schema.node? id).map (·.ancestry)

def maxRepetition? (schema : Schema) (id : FieldId) : Option Level :=
  (schema.node? id).map (·.maxRepetition)

def maxDefinition? (schema : Schema) (id : FieldId) : Option Level :=
  (schema.node? id).map (·.maxDefinition)

def depth? (schema : Schema) (id : FieldId) : Option Nat :=
  (schema.node? id).map (·.depth)

/-- One node lies strictly above another. -/
def isAncestor? (schema : Schema) (above below : FieldId) : Option Bool :=
  if above = below then some false
  else if above = rootId then some true
  else (schema.ancestry? below).map (·.contains above)

/-- The number of the common ancestor of two fields, if it is not the root. -/
def commonAncestor? (schema : Schema) (a b : FieldId) : Option (Option FieldId) :=
  if a = rootId ∨ b = rootId then some none
  else do
    let first ← schema.node? a
    let second ← schema.node? b
    return (first.commonAncestor? second).map (·.id)

/-- The repetition level of what the paths of two fields share. -/
def commonRepetition? (schema : Schema) (a b : FieldId) : Option Level := do
  let first ← schema.node? a
  let second ← schema.node? b
  return first.commonRepetition second

/-- The repeated field at or above a field that owns a repetition level; level 0 has no owner. -/
def repeatedAncestorAt? (schema : Schema) (id : FieldId) (level : Level) :
    Option (Option FieldId) :=
  if level = 0 then some none
  else (schema.node? id).map fun node => (node.repeatedAncestorAt? level).map (·.id)

end Schema

end NestedColumns
