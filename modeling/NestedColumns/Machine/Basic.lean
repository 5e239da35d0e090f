/-
The machine that orders column reads.

To rebuild a record, columns are read in an order that depends on their repetition levels. The
states of the machine are the selected leaves. After a row of a leaf, the repetition level of the
next row of that leaf chooses the leaf to read next, or ends the record.

A level up to the barrier, which is the repetition level that the leaf shares with the next selected
leaf, goes on to that leaf. A level above it repeats a group that ends with this leaf: reading goes
back to the first selected leaf of that group, or stays with the leaf itself.
-/

import NestedColumns.Projection.Basic
import NestedColumns.Schema.Ancestor

namespace NestedColumns

/-- A selected leaf: for each repetition level, from 0 up, the leaf to read after it, where `none`
ends the record. -/
structure Machine.State where
  field : FieldId
  name : String
  targets : List (Option FieldId)

/-- The machine of a selection of leaves. -/
structure Machine where
  states : List Machine.State

namespace Machine

/-! ### Building -/

/-- The repetition level up to which reading goes on to the next leaf. -/
def barrier (node : Node) (next : Option Node) : Level :=
  match next with
  | some after => node.commonRepetition after
  | none => 0

/-- The first earlier leaf that repeats beyond the barrier and shares exactly this level with the
given one. -/
def backTarget? (before : List Node) (node : Node) (barrier level : Level) : Option FieldId :=
  (before.find? fun earlier =>
    barrier < earlier.maxRepetition && earlier.commonRepetition node == level).map (·.id)

/-- Where reading restarts at a level above the barrier: where the least level from there up that
leads back does, and at the leaf itself if none does. -/
def restart (before : List Node) (node : Node) (barrier level : Level) : FieldId :=
  ((List.range' level (node.maxRepetition + 1 - level)).findSome?
    (backTarget? before node barrier)).getD node.id

/-- The state of a leaf, given the leaves before it and the one after it. -/
def stateOf (before : List Node) (node : Node) (next : Option Node) : State where
  field := node.id
  name := node.pathText
  targets := (List.range (node.maxRepetition + 1)).map fun level =>
    let barrier := barrier node next
    if level ≤ barrier then next.map (·.id) else some (restart before node barrier level)

/-- The states of a list of leaves that follow the leaves `before`. -/
def statesAfter (before : List Node) : List Node → List State
  | [] => []
  | node :: rest => stateOf before node rest.head? :: statesAfter (before ++ [node]) rest

/-- The machine of a projection. Its fields are looked up in `schema`, which may be another schema
than the one the projection was made for. -/
def ofProjection (schema : Schema) (projection : Projection) : Except Fault Machine := do
  if projection.isEmpty then .error (.invalidArgument .noFieldsSelected)
  let nodes ← projection.fields.mapM schema.resolve
  return ⟨statesAfter [] nodes⟩

/-! ### Asking -/

/-- The leaf that is read first in every record. -/
def start? (machine : Machine) : Option FieldId :=
  machine.states.head?.map (·.field)

/-- The leaves in reading order. -/
def fields (machine : Machine) : List FieldId :=
  machine.states.map (·.field)

def contains (machine : Machine) (field : FieldId) : Bool :=
  machine.fields.contains field

/-- The position of a leaf in reading order. -/
def position? (machine : Machine) (field : FieldId) : Option Nat :=
  machine.fields.idxOf? field

/-- The state of a leaf. -/
def state? (machine : Machine) (field : FieldId) : Option State :=
  machine.states.find? (·.field == field)

/-- The leaf to read after a row of `field` when its next row has the given level; `none` ends the
record. Levels above the greatest of the field count as the greatest. -/
def next? (machine : Machine) (field : FieldId) (level : Level) : Option FieldId := do
  let state ← machine.state? field
  let target ← state.targets[min level (state.targets.length - 1)]?
  target

/-- The entry for exactly this leaf and level, if there is one. -/
def transition? (machine : Machine) (field : FieldId) (level : Level) :
    Option (Option FieldId) := do
  let state ← machine.state? field
  state.targets[level]?

/-- All entries: leaf, level, and the leaf to read next. -/
def transitions (machine : Machine) : List (FieldId × Level × Option FieldId) :=
  machine.states.flatMap fun state =>
    state.targets.zipIdx.map fun (target, level) => (state.field, level, target)

/-- How many entries there are. -/
def transitionCount (machine : Machine) : Nat :=
  machine.transitions.length

end Machine

end NestedColumns
