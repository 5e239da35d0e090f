/-
Assembly: a record rebuilt from the rows of its columns.

Rows are read in the order of a machine, and each row moves the chain of open group instances. A
leaf that comes after the one read before it keeps the groups that both lie in. The same leaf again,
or an earlier one, starts a new instance of the repeated field that owns the repetition level of the
row. Then the groups around the leaf are opened as far as the definition level of the row reaches,
also when the row has no value, so that an instance in which nothing is present comes back too.

A record starts with a row of repetition level 0 and leaves every reader before a row of that level
or past the end; rows that do otherwise are refused.
-/

import NestedColumns.Assembly.Reader
import NestedColumns.Machine.Basic

namespace NestedColumns

namespace Assembly

/-- A record in the making. -/
structure Progress where
  readers : List Reader
  /-- What has been rebuilt. -/
  record : Record := .empty
  /-- The open group instances, from the record down. -/
  chain : Record.Place := []
  /-- The leaf that was read last, with its position in reading order. -/
  previous : Option (Nat × Node) := none

/-- The groups that a leaf lies in. -/
def groupsOf (node : Node) : Path :=
  node.path.dropLast

/-- How many open groups stay open when a row of `node` is read, which comes at `index` in reading
order and stands at `position` in its column. -/
def keptGroups (progress : Progress) (index : Nat) (node : Node) (row : Row) (position : Nat) :
    Except Fault Nat :=
  match progress.previous with
  | none =>
    if row.repetition = 0 then .ok 0
    else .error (.invalidFormat node.pathText (.startsInsideRecord position row.repetition))
  | some (before, last) =>
    if before < index then
      .ok (min (last.commonAncestorPath node).length progress.chain.length)
    else
      match Path.ownerIndex row.repetition node.path with
      | none => .error (.invalidFormat node.pathText (.unownedLevel row.repetition))
      | some owner =>
        if min owner (groupsOf node).length ≤ progress.chain.length then .ok owner
        else .error (.invalidFormat "open" .openGroupsForRepetition)

/-- One more value in the innermost of the open instances, and its index there. -/
def pushInto (place : Record.Place) (name : String) (value : Value) (record : Record) :
    Except Fault (Record × Nat) :=
  (record.pushAt place name value).mapError fun (group, index) =>
    .invalidFormat group (.openInstanceMissing index)

/-- New instances of the given groups, each inside the one before, as far as the definition level
reaches; `defined` is the level of the instance they start in. -/
def openGroups (definition : Level) :
    Path → Level → Record.Place → Record → Except Fault (Record.Place × Record)
  | [], _, place, record => .ok (place, record)
  | group :: groups, defined, place, record =>
    let reached := if group.cardinality.mayBeAbsent then defined + 1 else defined
    if definition < reached then .ok (place, record)
    else do
      let (longer, index) ← pushInto place group.name (.record .empty) record
      openGroups definition groups reached (place ++ [(group.name, index)]) longer

/-- The open groups and the record after a row of a leaf. -/
def addRow (progress : Progress) (index : Nat) (node : Node) (row : Row) (position : Nat) :
    Except Fault (Record.Place × Record) := do
  let groups := groupsOf node
  let place := progress.chain.take (← keptGroups progress index node row position)
  let (place, record) ← openGroups row.definition (groups.drop place.length)
    (Path.definitionLevel (groups.take place.length)) place progress.record
  match row.value with
  | none => return (place, record)
  | some value =>
    if place.length = groups.length then
      let (longer, _) ← pushInto place node.name value record
      return (place, longer)
    else .error (.invalidFormat "open" .openGroupsForValue)

/-- What one step of an assembly leads to. -/
inductive Outcome where
  /-- The leaf at `index` in reading order is to be read next. -/
  | next (index : Nat) (progress : Progress)
  /-- The record is complete. -/
  | complete (progress : Progress)
  /-- The rows do not form a record; the readers stand where reading stopped. -/
  | failed (fault : Fault) (readers : List Reader)

/-- The row at the reader of one leaf is read and added to the record. -/
def step (schema : Schema) (machine : Machine) (index : Nat) (progress : Progress) : Outcome :=
  match progress.readers[index]? with
  | none => .complete progress
  | some reader =>
    match schema.resolve reader.field with
    | .error fault => .failed fault progress.readers
    | .ok node =>
      match reader.read with
      | .error fault => .failed fault progress.readers
      | .ok (row, after) =>
        let readers := progress.readers.set index after
        match addRow progress index node row reader.position with
        | .error fault => .failed fault readers
        | .ok (place, record) =>
          let progress : Progress := ⟨readers, record, place, some (index, node)⟩
          match (machine.next? reader.field after.nextRepetition).bind machine.position? with
          | some following => .next following progress
          | none => .complete progress

theorem unreadRows_lt_of_step {schema : Schema} {machine : Machine} {index following : Nat}
    {progress later : Progress}
    (goesOn : step schema machine index progress = .next following later) :
    unreadRows later.readers < unreadRows progress.readers := by
  unfold step at goesOn
  split at goesOn
  · cases goesOn
  · rename_i reader here
    split at goesOn
    · cases goesOn
    · split at goesOn
      · cases goesOn
      · rename_i row after found
        dsimp only at goesOn
        split at goesOn
        · cases goesOn
        · split at goesOn
          · cases goesOn
            exact unreadRows_set_lt here found
          · cases goesOn

/-- Steps are taken until the record is complete or the rows do not form one. Every step reads a
row, so there are no more steps than unread rows, and one that finds none. -/
def run (schema : Schema) (machine : Machine) (index : Nat) (progress : Progress) :
    Except Fault Progress × List Reader :=
  match _ : step schema machine index progress with
  | .next following later => run schema machine following later
  | .complete later => (.ok later, later.readers)
  | .failed fault readers => (.error fault, readers)
termination_by unreadRows progress.readers
decreasing_by exact unreadRows_lt_of_step (by assumption)

/-- Every reader stands before a row that starts a record, or past the end. -/
def checkEnds (readers : List Reader) : Except Fault Unit :=
  readers.forM fun reader =>
    if reader.nextRepetition = 0 then .ok ()
    else .error (.invalidFormat reader.column.path (.endsInsideRecord reader.position))

end Assembly

/-- The record that the readers stand before, and the readers behind it; or the fault of its rows,
and the readers where it was found. There is one reader for each state of the machine, in order. -/
def Schema.assemble (schema : Schema) (machine : Machine) (readers : List Reader) :
    Except Fault Record × List Reader :=
  if readers.map (·.field) = machine.fields then
    match Assembly.run schema machine 0 { readers } with
    | (.error fault, after) => (.error fault, after)
    | (.ok progress, after) => ((Assembly.checkEnds after).map fun _ => progress.record, after)
  else (.error (.invalidArgument .readersMismatch), readers)

end NestedColumns
