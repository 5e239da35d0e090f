/-
Options of a table. They say how work is scheduled and never change stored rows or rebuilt records.
-/

namespace NestedColumns

/-- How a table schedules its work. -/
structure TableOptions where
  /-- Rows reserved in every new column. -/
  initialCapacity : Nat := 1024
  /-- Whether the records of a batch may be taken apart side by side. -/
  parallelLoad : Bool := true
  /-- The least batch for which that is done. -/
  minParallelBatch : Nat := 64
  /-- Whether the records of a range may be rebuilt side by side. -/
  parallelAssembly : Bool := true
  /-- How many consecutive records are rebuilt in one piece. -/
  assemblyChunkSize : Nat := 256
  deriving DecidableEq

end NestedColumns
