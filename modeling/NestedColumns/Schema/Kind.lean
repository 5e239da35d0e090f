/-
The two attributes of a field that are chosen freely: how many values it holds (`Cardinality`) and,
if it is a leaf, the type of those values (`ScalarType`).
-/

namespace NestedColumns

/-- How many values a field may hold within one instance of its parent. -/
inductive Cardinality where
  /-- Exactly one value. -/
  | required
  /-- At most one value. -/
  | optional
  /-- Any number of values. -/
  | repeated
  deriving DecidableEq

namespace Cardinality

/-- Only a repeated field adds a repetition level. -/
def isRepeated : Cardinality → Bool
  | .repeated => true
  | _ => false

/-- Optional and repeated fields may be absent, so each of them adds a definition level. -/
def mayBeAbsent : Cardinality → Bool
  | .required => false
  | _ => true

/-- The word for a cardinality. -/
def text : Cardinality → String
  | .required => "required"
  | .optional => "optional"
  | .repeated => "repeated"

end Cardinality

/-- The type of the values that a leaf field holds. -/
inductive ScalarType where
  | boolean
  | int64
  | float64
  | string
  deriving DecidableEq

/-- The word for a scalar type. -/
def ScalarType.text : ScalarType → String
  | .boolean => "boolean"
  | .int64 => "int64"
  | .float64 => "float64"
  | .string => "string"

/-- What kind of thing a value is: a scalar of some type, or a nested record. -/
inductive ValueKind where
  | scalar (type : ScalarType)
  | record
  deriving DecidableEq

/-- The word for a kind of value. -/
def ValueKind.text : ValueKind → String
  | .scalar type => type.text
  | .record => "record"

/-- The scalar type of a kind; a record has none. -/
def ValueKind.scalarType? : ValueKind → Option ScalarType
  | .scalar type => some type
  | .record => none

end NestedColumns
