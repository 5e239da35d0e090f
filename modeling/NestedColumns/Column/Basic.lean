/-
Columns.

A column holds the rows of one leaf field: values, repetition levels and definition levels, which
stand side by side in three arrays. A row whose definition level is below the maximum has no value;
the array of values holds the filler of the type there, and `get` does not show it. The rows with
repetition level 0 start the records and are indexed.
-/

import NestedColumns.Record.Basic
import NestedColumns.Schema.Basic

namespace NestedColumns

/-- One occurrence of a leaf field, present or not. -/
structure Row where
  value : Option Value
  repetition : Level
  definition : Level

/-- A row without a value. -/
def Row.isNull (row : Row) : Bool :=
  row.value.isNone

/-- The stored rows of one leaf field. -/
structure Column where
  field : FieldId
  path : String
  maxRepetition : Level
  maxDefinition : Level
  type : ScalarType
  values : Array type.Carrier := #[]
  repetitionLevels : Array Level := #[]
  definitionLevels : Array Level := #[]
  /-- The rows with repetition level 0. -/
  recordStarts : Array Nat := #[]

namespace Column

/-- The empty column of a leaf. -/
def ofNode (node : Node) : Except Fault Column :=
  match node.type? with
  | some type =>
    .ok
      { field := node.id
        path := node.pathText
        maxRepetition := node.maxRepetition
        maxDefinition := node.maxDefinition
        type := type }
  | none => .error (.invalidArgument (.columnOfGroup node.pathText))

/-- The empty column of the field with the given number. -/
def new (schema : Schema) (field : FieldId) : Except Fault Column := do
  ofNode (← schema.resolve field)

/-- How many rows a column has. -/
def size (column : Column) : Nat :=
  column.repetitionLevels.size

def isEmpty (column : Column) : Bool :=
  column.size == 0

/-! ### Writing -/

/-- What speaks against a row. A row has a value exactly at the maximum definition level, and the
value has the type of the column. -/
def refusal? (column : Column) (row : Row) : Option Fault :=
  if column.maxRepetition < row.repetition then
    some (.invalidArgument .repetitionAboveMaximum)
  else if column.maxDefinition < row.definition then
    some (.invalidArgument .definitionAboveMaximum)
  else if row.value.isSome != (row.definition == column.maxDefinition) then
    some (.invalidArgument .valueAgainstDefinition)
  else
    match row.value with
    | none => none
    | some value =>
      if value.kind = .scalar column.type then none
      else some (.schemaMismatch column.path (.typeMismatch column.type value.kind))

/-- The column with one more bare value, or with the filler of its type, and whether the value has
that type: one of another type is not stored. -/
def push (column : Column) : Option Value → Column × Bool
  | none => ({ column with values := column.values.push column.type.filler }, true)
  | some value =>
    match value.toCarrier? column.type with
    | some bare => ({ column with values := column.values.push bare }, true)
    | none => (column, false)

/-- The column as an attempt to append a row leaves it, and the position of the row if it is taken. -/
def append (column : Column) (row : Row) : Column × Except Fault Nat :=
  match column.refusal? row with
  | some fault => (column, .error fault)
  | none =>
    let position := column.size
    match column.push row.value with
    | (column, false) => (column, .error (.schemaMismatch column.path .notStored))
    | (column, true) =>
      let column := { column with repetitionLevels := column.repetitionLevels.push row.repetition }
      let column := { column with definitionLevels := column.definitionLevels.push row.definition }
      if row.repetition = 0 then
        ({ column with recordStarts := column.recordStarts.push position }, .ok position)
      else (column, .ok position)

/-- The column with one more row, and the position of that row. -/
def insert (column : Column) (row : Row) : Except Fault (Column × Nat) :=
  match column.append row with
  | (longer, .ok position) => .ok (longer, position)
  | (_, .error fault) => .error fault

/-- The column with more rows, up to the first that it refuses. -/
def insertAll (column : Column) : List Row → Column × Except Fault Unit
  | [] => (column, .ok ())
  | row :: rows =>
    match column.insert row with
    | .ok (longer, _) => longer.insertAll rows
    | .error fault => (column, .error fault)

/-- The column without its rows from a position on. -/
def truncate (column : Column) (size : Nat) : Column :=
  if column.size ≤ size then column
  else
    { column with
      values := column.values.take size
      repetitionLevels := column.repetitionLevels.take size
      definitionLevels := column.definitionLevels.take size
      recordStarts := column.recordStarts.takeWhile (· < size) }

/-! ### Reading -/

/-- The row at a position. -/
def get? (column : Column) (position : Nat) : Option Row := do
  let repetition ← column.repetitionLevels[position]?
  let definition ← column.definitionLevels[position]?
  let value ← column.values[position]?
  let present := definition = column.maxDefinition
  return ⟨if present then some (.scalar (Scalar.ofCarrier column.type value)) else none,
    repetition, definition⟩

/-- The row at a position; there is none past the end. -/
def get (column : Column) (position : Nat) : Except Fault Row :=
  match column.get? position with
  | some row => .ok row
  | none => .error (.storeUnderrun column.path position column.size)

/-- All rows in order. -/
def rows (column : Column) : List Row :=
  (List.range column.size).filterMap column.get?

/-- How many records have rows in a column. -/
def recordCount (column : Column) : Nat :=
  column.recordStarts.size

/-- The first row of a record. -/
def recordStart? (column : Column) (record : Nat) : Option Nat :=
  column.recordStarts[record]?

/-- The first row of a record and the first row after it. -/
def recordRows? (column : Column) (record : Nat) : Option (Nat × Nat) :=
  (column.recordStart? record).map fun start =>
    (start, (column.recordStart? (record + 1)).getD column.size)

end Column

end NestedColumns
