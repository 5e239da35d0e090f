/-
Staged records, and columns as a place for rows.

A staged record buffers the rows of one record, column by column, until they are committed to
columns that store them. It takes any row of a column it has; columns take the rows that
`Column.insert` takes.
-/

import NestedColumns.Striping.Shred

namespace NestedColumns

/-- Buffered rows, one list per column. -/
structure StagedRecord where
  columns : List (List Row)

namespace StagedRecord

/-- No rows for any of the given number of columns. -/
def new (columnCount : Nat) : StagedRecord :=
  ⟨List.replicate columnCount []⟩

/-- The rows of a column; a column that is not there has none. -/
def rows (staged : StagedRecord) (column : Nat) : List Row :=
  (staged.columns[column]?).getD []

/-- How many rows there are over all columns. -/
def rowCount (staged : StagedRecord) : Nat :=
  staged.columns.flatten.length

def columnCount (staged : StagedRecord) : Nat :=
  staged.columns.length

/-- The staged record with one more row. -/
def insert (staged : StagedRecord) (column : Nat) (row : Row) : Except Fault StagedRecord :=
  if column < staged.columnCount then .ok ⟨staged.columns.modify column (· ++ [row])⟩
  else .error (.invalidArgument (.columnOutOfRange column staged.columnCount))

end StagedRecord

namespace Columns

/-- The columns with one more row in one of them. -/
def insert (columns : List Column) (column : Nat) (row : Row) : Except Fault (List Column) :=
  match columns[column]? with
  | none => .error (.invalidArgument (.columnOutOfRange column columns.length))
  | some target => (target.insert row).map fun (longer, _) => columns.set column longer

/-- Lists of rows appended to columns pairwise, up to the first row that is refused. -/
def appendEach : List (List Row) → List Column → List Column × Except Fault Unit
  | rows :: more, column :: columns =>
    match column.insertAll rows with
    | (longer, .error fault) => (longer :: columns, .error fault)
    | (longer, .ok ()) =>
      let (rest, result) := appendEach more columns
      (longer :: rest, result)
  | _, columns => (columns, .ok ())

end Columns

namespace StagedRecord

/-- The columns with the staged rows appended. The rows before one that is refused stay. -/
def commit (staged : StagedRecord) (columns : List Column) : List Column × Except Fault Unit :=
  if staged.columnCount = columns.length then Columns.appendEach staged.columns columns
  else (columns, .error (.invalidArgument (.widthMismatch staged.columnCount columns.length)))

end StagedRecord

namespace Schema

/-- The rows of a record, column by column; a record that does not conform to the schema has none.
-/
def stage (schema : Schema) (record : Record) : Except Fault StagedRecord :=
  match (schema.shred record).into StagedRecord.insert (StagedRecord.new schema.columnCount) with
  | (staged, .ok ()) => .ok staged
  | (_, .error fault) => .error fault

end Schema

end NestedColumns
