/-
JSON values.

A number is an integer if it was written as one and fits in 64 bits, signed or unsigned, and
otherwise a floating-point number. The members of an object stand in ascending order of their keys,
each key once.
-/

import NestedColumns.Entries
import NestedColumns.Number.Binary64

namespace NestedColumns

/-- A JSON number. -/
inductive JsonNumber where
  | integer (value : Int)
  | float (value : Binary64)
  deriving DecidableEq

/-- A JSON value. -/
inductive Json where
  | null
  | boolean (value : Bool)
  | number (value : JsonNumber)
  | string (value : String)
  | array (items : List Json)
  | object (members : List (String × Json))

namespace Json

/-- The number of an integer. -/
def ofInt64 (value : Int64) : Json :=
  .number (.integer value.toInt)

/-- The number of a floating-point number; those that are not finite have none. -/
def ofFloat64 (value : Binary64) : Json :=
  if value.isFinite then .number (.float value) else .null

def asBoolean? : Json → Option Bool
  | .boolean value => some value
  | _ => none

/-- An integer of 64 bits with sign. -/
def asInt64? : Json → Option Int64
  | .number (.integer value) =>
    if Int64.minValue.toInt ≤ value ∧ value ≤ Int64.maxValue.toInt then some (Int64.ofInt value)
    else none
  | _ => none

/-- Any number, the nearest one if it is an integer. -/
def asFloat64? : Json → Option Binary64
  | .number (.integer value) => some (Binary64.ofInt value)
  | .number (.float value) => some value
  | _ => none

def asString? : Json → Option String
  | .string value => some value
  | _ => none

end Json

end NestedColumns
