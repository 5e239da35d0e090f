/-
Streams of records, assembled one after the other.

A stream ends when its records are counted out, or after the first fault, which leaves the readers
inside a record.
-/

import NestedColumns.Assembly.Assemble

namespace NestedColumns

/-- Records still to be assembled. -/
structure RecordStream where
  schema : Schema
  machine : Machine
  readers : List Reader
  remaining : Nat

namespace RecordStream

/-- The next record or fault, and the stream behind it. -/
def next? (stream : RecordStream) : Option (Except Fault Record × RecordStream) :=
  match stream.remaining with
  | 0 => none
  | remaining + 1 =>
    match stream.schema.assemble stream.machine stream.readers with
    | (.ok record, readers) => some (.ok record, { stream with readers, remaining })
    | (.error fault, readers) => some (.error fault, { stream with readers, remaining := 0 })

/-- Between how many and how many items are still to come, as far as the stream knows. -/
def sizeHint (stream : RecordStream) : Nat × Nat :=
  (stream.remaining, stream.remaining)

theorem remaining_lt_of_next? {stream later : RecordStream} {item : Except Fault Record}
    (found : stream.next? = some (item, later)) : later.remaining < stream.remaining := by
  unfold next? at found
  split at found
  · cases found
  · rename_i left count
    split at found <;> cases found <;> simp only [count] <;> omega

/-- The items of a stream in order, each with the stream behind it. -/
def items (stream : RecordStream) : List (Except Fault Record × RecordStream) :=
  match _ : stream.next? with
  | none => []
  | some (item, later) => (item, later) :: later.items
termination_by stream.remaining
decreasing_by exact remaining_lt_of_next? (by assumption)

/-- The items of a stream in order. -/
def toList (stream : RecordStream) : List (Except Fault Record) :=
  stream.items.map (·.1)

/-- How many items are announced at least, at the start and behind each item. -/
def announced (stream : RecordStream) : List Nat :=
  stream.sizeHint.1 :: stream.items.map (·.2.sizeHint.1)

end RecordStream

end NestedColumns
