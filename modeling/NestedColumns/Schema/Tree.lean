/-
The tree of fields.

A field is a leaf with a scalar type or a group with fields of its own. The way from the root down
to a field is a `Path`; the levels of a field are counts over its path, and so is its dotted name.
The root of a record type is not a field: it stands on no path and adds to no level.
-/

import NestedColumns.Schema.Kind

namespace NestedColumns

/-- A repetition or definition level. -/
abbrev Level := Nat

/-- The number of a node; the root has number 0. -/
abbrev FieldId := Nat

/-- The number of the root. -/
def rootId : FieldId := 0

/-- What a field is apart from what lies below it. -/
structure Label where
  id : FieldId
  name : String
  cardinality : Cardinality
  deriving DecidableEq

/-- A field and everything below it. -/
inductive Field where
  | leaf (label : Label) (type : ScalarType)
  | group (label : Label) (children : List Field)

/-- The fields from a top-level one down to the one that is meant; empty for the root. -/
abbrev Path := List Label

namespace Path

/-- The repeated fields of a path; as many repetition levels a row of its last field may have above
0. -/
def repetitionLevel (path : Path) : Level :=
  path.countP (·.cardinality.isRepeated)

/-- The fields of a path that may be absent; the definition level of a present value. -/
def definitionLevel (path : Path) : Level :=
  path.countP (·.cardinality.mayBeAbsent)

/-- The definition level of a row that stands for the absence of the last field of a path from a
present parent. -/
def absentLevel (path : Path) : Level :=
  definitionLevel path - 1

/-- The dotted name of a path. -/
def text (path : Path) : String :=
  ".".intercalate (path.map (·.name))

/-- The numbers of the fields of a path. -/
def ids (path : Path) : List FieldId :=
  path.map (·.id)

/-- Where on a path the repeated field stands that owns a repetition level, when `passed` repeated
fields stand before the path. -/
def ownerFrom (passed : Nat) (level : Level) : Path → Option Nat
  | [] => none
  | label :: rest =>
    let through := if label.cardinality.isRepeated then passed + 1 else passed
    if label.cardinality.isRepeated && through == level then some 0
    else (ownerFrom through level rest).map (· + 1)

/-- Where on a path the repeated field stands that owns a repetition level. -/
def ownerIndex (level : Level) (path : Path) : Option Nat :=
  ownerFrom 0 level path

/-- The fields that two paths share, from the top down. -/
def shared : Path → Path → Path
  | a :: as, b :: bs => if a.id = b.id then a :: shared as bs else []
  | _, _ => []

end Path

namespace Field

def label : Field → Label
  | .leaf label _ => label
  | .group label _ => label

/-- The scalar type of a leaf. -/
def type? : Field → Option ScalarType
  | .leaf _ type => some type
  | .group .. => none

def isLeaf (field : Field) : Bool :=
  field.type?.isSome

/-- The fields immediately below a field. -/
def children : Field → List Field
  | .leaf .. => []
  | .group _ children => children

mutual

/-- How many leaves a field has at or below it. -/
def leafCount : Field → Nat
  | .leaf .. => 1
  | .group _ children => leafCounts children
termination_by structural field => field

/-- How many leaves a list of fields has at or below them. -/
def leafCounts : List Field → Nat
  | [] => 0
  | field :: fields => field.leafCount + leafCounts fields
termination_by structural fields => fields

end

end Field

end NestedColumns
