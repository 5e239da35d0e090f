/-
Random records of any type.

Required fields get one value, optional ones a value with some likelihood, and repeated ones up to a
greatest number of values, so every record conforms to its schema.
-/

import NestedColumns.Record.Basic
import NestedColumns.Sample.Generator
import NestedColumns.Schema.Basic

namespace NestedColumns.Sample

/-- The shape of random records. -/
structure RecordShape where
  /-- A repeated field holds at most this many values. -/
  maxRepeat : Nat := 3
  /-- How likely an optional field is present. -/
  optionalLikelihood : Binary64 := Binary64.ofRatio false 3 5

variable {σ : Type} (source : Source σ)

/-- A scalar of the given type: small integers, eighths of small integers, short words. -/
def randomScalar : ScalarType → Draw σ Scalar
  | .boolean => do return .boolean (← Draw.always source.boolean)
  | .int64 => do return .int64 (Int64.ofInt (← source.intRange 64 (-1000) 1000))
  | .float64 => do
    let eighths ← source.intRange 32 (-1000) 1000
    return .float64 (Binary64.ofRatio (eighths < 0) eighths.natAbs 8)
  | .string => do
    let length ← source.range 0 8
    return .string (← Draw.letters source length)

/-- How many values a field gets. -/
def randomCount (shape : RecordShape) : Cardinality → Draw σ Nat
  | .required => return 1
  | .optional => do return if ← Draw.chance source shape.optionalLikelihood then 1 else 0
  | .repeated => source.range 0 (shape.maxRepeat + 1)

mutual

/-- One value of a field. -/
def randomValue (shape : RecordShape) : Field → Draw σ Value
  | .leaf _ type => do return .scalar (← randomScalar source type)
  | .group _ children => do return .record (← randomFields shape children .empty)
termination_by structural field => field

/-- `record` with values for the given fields, drawn in order. -/
def randomFields (shape : RecordShape) : List Field → Record → Draw σ Record
  | [], record => return record
  | field :: fields, record => do
    let count ← randomCount source shape field.label.cardinality
    let values ← Draw.times (randomValue shape field) count
    randomFields shape fields (record.append field.label.name values)
termination_by structural fields => fields

end

/-- A number of random records of a type, from a seed. -/
def recordsOf? (schema : Schema) (count : Nat) (seed : UInt64) (shape : RecordShape) :
    Option (List Record) :=
  (Draw.times (randomFields source shape schema.fields .empty) count).from? (source.ofSeed seed)

/-- A number of records of a type, drawn by a generator. -/
def records? (schema : Schema) (count : Nat) (seed : UInt64) (shape : RecordShape) :
    Option (List Record) :=
  recordsOf? Generator.source schema count seed shape

end NestedColumns.Sample
