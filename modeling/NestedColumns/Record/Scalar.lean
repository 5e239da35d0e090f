/-
Scalars, and the carrier type of each scalar type.

A scalar is a value together with its type. A column of one type holds bare values of the carrier of
that type; `Scalar.ofCarrier` and `Scalar.toCarrier?` go back and forth.
-/

import NestedColumns.Schema.Kind
import NestedColumns.Number.Binary64

namespace NestedColumns

/-- A value of one of the four scalar types. -/
inductive Scalar where
  | boolean (value : Bool)
  | int64 (value : Int64)
  | float64 (value : Binary64)
  | string (value : String)
  deriving DecidableEq

/-- The Lean type of the bare values of a scalar type. -/
@[reducible] def ScalarType.Carrier : ScalarType → Type
  | .boolean => Bool
  | .int64 => Int64
  | .float64 => Binary64
  | .string => String

/-- The bare value that a column holds where there is none. -/
def ScalarType.filler : (type : ScalarType) → type.Carrier
  | .boolean => false
  | .int64 => 0
  | .float64 => Binary64.zero
  | .string => ""

namespace Scalar

/-- The type of a scalar. -/
def type : Scalar → ScalarType
  | .boolean _ => .boolean
  | .int64 _ => .int64
  | .float64 _ => .float64
  | .string _ => .string

/-- A bare value together with its type. -/
def ofCarrier : (type : ScalarType) → type.Carrier → Scalar
  | .boolean, value => .boolean value
  | .int64, value => .int64 value
  | .float64, value => .float64 value
  | .string, value => .string value

/-- The bare value of a scalar, if it has the given type. -/
def toCarrier? : (type : ScalarType) → Scalar → Option type.Carrier
  | .boolean, .boolean value => some value
  | .int64, .int64 value => some value
  | .float64, .float64 value => some value
  | .string, .string value => some value
  | _, _ => none

/-- Equality of values, which for floating-point numbers is the numerical one. -/
def isEqual : Scalar → Scalar → Bool
  | .float64 x, .float64 y => x.isEqual y
  | a, b => a == b

/-- A scalar has a bare value in exactly its own type, and is made from it. -/
theorem toCarrier?_eq_some_iff (type : ScalarType) (scalar : Scalar) (value : type.Carrier) :
    toCarrier? type scalar = some value ↔ scalar = ofCarrier type value := by
  cases type <;> cases scalar <;> simp [toCarrier?, ofCarrier]

end Scalar

end NestedColumns
