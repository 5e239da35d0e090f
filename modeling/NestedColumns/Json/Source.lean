/-
JSON texts as trees.

A source is what a text says before its numbers and strings are given their meaning. Words are taken
one by one; the state keeps the containers that are still open, so reading is a recursion on the
words and nesting has no bound here. `Source.value?` gives a source its meaning, which it has only
if no value is nested too deeply, every number is in range and no half of a surrogate pair stands
alone.
-/

import NestedColumns.Json.Basic
import NestedColumns.Json.Token

namespace NestedColumns.Json

/-- What a JSON text says. -/
inductive Source where
  | null
  | boolean (value : Bool)
  | number (numeral : Numeral)
  | string (pieces : List Piece)
  | array (items : List Source)
  | object (members : List (List Piece × Source))

namespace Source

/-! ### Reading -/

/-- A container that waits for a value, with what stands in it already, the last first. -/
inductive Container where
  | array (items : List Source)
  | object (members : List (List Piece × Source)) (key : List Piece)

/-- What may come next, inside the containers that are open, the innermost first. -/
inductive Reading where
  /-- A value. -/
  | value (around : List Container)
  /-- The first value of an array, or its end. -/
  | firstItem (around : List Container)
  /-- The first key of an object, or its end. -/
  | firstKey (around : List Container)
  /-- A further key of an object with these members. -/
  | key (members : List (List Piece × Source)) (around : List Container)
  /-- The colon behind a key. -/
  | colon (members : List (List Piece × Source)) (key : List Piece) (around : List Container)
  /-- What goes on behind a complete value. -/
  | behind (value : Source) (around : List Container)

/-- A value starts with a word. -/
def startValue (around : List Container) : Token → Option Reading
  | .null => some (.behind .null around)
  | .boolean value => some (.behind (.boolean value) around)
  | .number numeral => some (.behind (.number numeral) around)
  | .string pieces => some (.behind (.string pieces) around)
  | .leftBracket => some (.firstItem around)
  | .leftBrace => some (.firstKey around)
  | _ => none

/-- One word more. -/
def accept : Reading → Token → Option Reading
  | .value around, token => startValue around token
  | .firstItem around, .rightBracket => some (.behind (.array []) around)
  | .firstItem around, token => startValue (.array [] :: around) token
  | .firstKey around, .rightBrace => some (.behind (.object []) around)
  | .firstKey around, .string key => some (.colon [] key around)
  | .key members around, .string key => some (.colon members key around)
  | .colon members key around, .colon => some (.value (.object members key :: around))
  | .behind value (.array items :: around), .comma =>
    some (.value (.array (value :: items) :: around))
  | .behind value (.array items :: around), .rightBracket =>
    some (.behind (.array (value :: items).reverse) around)
  | .behind value (.object members key :: around), .comma =>
    some (.key ((key, value) :: members) around)
  | .behind value (.object members key :: around), .rightBrace =>
    some (.behind (.object ((key, value) :: members).reverse) around)
  | _, _ => none

/-- The one value that a list of words is. -/
def ofTokens? (tokens : List Token) : Option Source :=
  match tokens.foldlM accept (.value []) with
  | some (.behind value []) => some value
  | _ => none

/-- The one value that a text is. -/
def ofText? (text : String) : Option Source :=
  (tokens? text.toList).bind ofTokens?

/-! ### Meaning -/

/-- The integer of 64 bits, with or without sign, that a numeral without point and exponent stands
for; minus zero is no integer. -/
def integer? (numeral : Numeral) : Option Int :=
  match numeral.fraction, numeral.exponent with
  | none, none =>
    let value := digitsValue numeral.whole
    if numeral.negative then
      if 0 < value ∧ value ≤ Int64.minValue.toInt.natAbs then some (-(value : Int)) else none
    else if value < UInt64.size then some value
    else none
  | _, _ => none

/-- The floating-point number nearest to a numeral, if it is finite. -/
def float? (numeral : Numeral) : Option Binary64 :=
  let fraction := numeral.fraction.getD []
  let value := Binary64.ofDecimal numeral.negative (digitsValue (numeral.whole ++ fraction))
    (numeral.exponent.getD 0 - fraction.length)
  if value.isFinite then some value else none

/-- The number that a numeral stands for. -/
def number? (numeral : Numeral) : Option JsonNumber :=
  match integer? numeral with
  | some value => some (.integer value)
  | none => (float? numeral).map .float

/-- The string that pieces spell. -/
def string? (pieces : List Piece) : Option String :=
  (spell? pieces).map String.ofList

mutual

/-- The value of a source, in which at most `room` containers stand inside each other. -/
def meaning? (room : Nat) : Source → Option Json
  | .null => some .null
  | .boolean value => some (.boolean value)
  | .number numeral => (number? numeral).map .number
  | .string pieces => (string? pieces).map .string
  | .array items => if room = 0 then none else (itemMeanings? (room - 1) items).map .array
  | .object members =>
    if room = 0 then none else (memberMeanings? (room - 1) [] members).map .object
termination_by structural source => source

def itemMeanings? (room : Nat) : List Source → Option (List Json)
  | [] => some []
  | item :: items => do
    let first ← meaning? room item
    let rest ← itemMeanings? room items
    return first :: rest
termination_by structural items => items

/-- The members of an object put in order; a key that comes again takes the place of the first. -/
def memberMeanings? (room : Nat) (known : Entries Json) :
    List (List Piece × Source) → Option (Entries Json)
  | [] => some known
  | (key, source) :: members => do
    let name ← string? key
    let value ← meaning? room source
    memberMeanings? room (Entries.put name value known) members
termination_by structural members => members

end

/-- The value of a source; up to 127 containers may stand inside each other. -/
def value? (source : Source) : Option Json :=
  source.meaning? 127

end Source

/-- The value that a text stands for. -/
def ofText? (text : String) : Option Json :=
  (Source.ofText? text).bind Source.value?

end NestedColumns.Json
