/-
Reading a table: single records, ranges and streams, all through a machine over the columns.

A range is rebuilt in one piece, or in chunks each of which looks up its first record on its own.
-/

import NestedColumns.Assembly.Stream
import NestedColumns.Table.Basic

namespace NestedColumns.Table

/-- The machine of a projection. -/
def machine (table : Table) (projection : Projection) : Except Fault Machine :=
  Machine.ofProjection table.schema projection

/-- Readers for the leaves of a machine, at the first rows of a record. -/
def readers (table : Table) (machine : Machine) (record : Nat) : Except Fault (List Reader) :=
  machine.fields.mapM fun field => do
    Reader.atRecord (← table.column field) record

/-- One record, as far as the machine reads it. -/
def assemble (table : Table) (machine : Machine) (record : Nat) : Except Fault Record := do
  if table.size ≤ record then .error (.invalidArgument .recordOutOfRange)
  let readers ← table.readers machine record
  (table.schema.assemble machine readers).1

/-- A number of consecutive records from where the readers stand. -/
def assembleCount (table : Table) (machine : Machine) :
    Nat → List Reader → Except Fault (List Record)
  | 0, _ => .ok []
  | count + 1, readers =>
    match table.schema.assemble machine readers with
    | (.error fault, _) => .error fault
    | (.ok record, after) => (assembleCount table machine count after).map (record :: ·)

/-- A number of consecutive records from the one with index `start`. -/
def assembleChunk (table : Table) (machine : Machine) (start count : Nat) :
    Except Fault (List Record) :=
  if count = 0 then .ok []
  else do
    let readers ← table.readers machine start
    table.assembleCount machine count readers

/-- The chunks, each a first index and a length, that a range falls into. -/
def chunks (size start count : Nat) : List (Nat × Nat) :=
  (List.range ((count + size - 1) / size)).map fun chunk =>
    (start + chunk * size, min size (count - chunk * size))

/-- The records with indices from `start` up to but not including `stop`. -/
def assembleRange (table : Table) (machine : Machine) (start stop : Nat) :
    Except Fault (List Record) := do
  if stop < start ∨ table.size < stop then .error (.invalidArgument .rangeOutOfBounds)
  let count := stop - start
  let size := max table.options.assemblyChunkSize 1
  if !table.options.parallelAssembly || count ≤ size then
    table.assembleChunk machine start count
  else
    let pieces ← (chunks size start count).mapM fun (first, length) =>
      table.assembleChunk machine first length
    return pieces.flatten

/-- All records, one after the other. -/
def records (table : Table) (machine : Machine) : Except Fault RecordStream := do
  let readers ←
    if table.isEmpty then machine.fields.mapM fun field => do
      let column ← table.column field
      return Reader.mk column 0
    else table.readers machine 0
  return ⟨table.schema, machine, readers, table.size⟩

end NestedColumns.Table
