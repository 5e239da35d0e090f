/-
Tables: the stored columns of one record type.

A table has one column for each leaf, in order. A record is first taken apart completely and then
appended to the columns, so a record that does not conform to the schema leaves no row behind, and
no record of a batch is stored if one of them does not conform.
-/

import NestedColumns.Projection.Basic
import NestedColumns.Column.Text
import NestedColumns.Striping.Staged
import NestedColumns.Table.Options

namespace NestedColumns

/-- The columns of a record type, and how many records they hold. -/
structure Table where
  schema : Schema
  options : TableOptions
  columns : List Column
  size : Nat

namespace Table

/-- The table of a record type without records. -/
def new (schema : Schema) (options : TableOptions) : Except Fault Table := do
  let columns ← schema.leaves.mapM Column.ofNode
  return ⟨schema, options, columns, 0⟩

def isEmpty (table : Table) : Bool :=
  table.size == 0

/-! ### Columns -/

/-- The column of the leaf with the given number. -/
def column (table : Table) (field : FieldId) : Except Fault Column := do
  let node ← table.schema.resolve field
  match (table.schema.leafOrdinal? field).bind (table.columns[·]?) with
  | some column => .ok column
  | none => .error (.schemaMismatch node.pathText .notLeaf)

/-- The column of the leaf with the given dotted path. -/
def columnByPath (table : Table) (path : String) : Except Fault Column := do
  table.column (← Projection.idOfPath table.schema path)

/-- The tables of all columns, with an empty line between two of them. -/
def dump (table : Table) : String :=
  "\n".intercalate (table.columns.map Column.text)

/-! ### Insertion -/

/-- Staged records appended to columns, one after the other, up to the first that is refused. -/
def appendStaged : List StagedRecord → List Column → List Column × Except Fault Unit
  | [], columns => (columns, .ok ())
  | staged :: rest, columns =>
    match staged.commit columns with
    | (longer, .ok ()) => appendStaged rest longer
    | (longer, .error fault) => (longer, .error fault)

/-- The table with staged records appended, in order. If a row is refused, every column is cut back
to the rows it had. -/
def commit (table : Table) (staged : List StagedRecord) : Table × Except Fault Unit :=
  match appendStaged staged table.columns with
  | (columns, .ok ()) => ({ table with columns, size := table.size + staged.length }, .ok ())
  | (columns, .error fault) =>
    ({ table with columns := List.zipWith Column.truncate columns (table.columns.map Column.size) },
      .error fault)

/-- The table with one more record, and the index of that record. -/
def insert (table : Table) (record : Record) : Table × Except Fault Nat :=
  match table.schema.stage record with
  | .error fault => (table, .error fault)
  | .ok staged =>
    let (longer, result) := table.commit [staged]
    (longer, result.map fun _ => table.size)

/-- The table with more records, and the range of their indices. Every record is staged before any
is stored. -/
def insertBatch (table : Table) (records : List Record) : Table × Except Fault (Nat × Nat) :=
  match records.mapM table.schema.stage with
  | .error fault => (table, .error fault)
  | .ok staged =>
    let (longer, result) := table.commit staged
    (longer, result.map fun _ => (table.size, longer.size))

end Table

end NestedColumns
