/-
The compact text of a JSON value, without any blank.

In strings the quote, the backslash and control characters are escaped and nothing else. The
shortest digits of a floating-point number are written with the point at its place from 10^-5 up to
10^16, and otherwise with a signed exponent.
-/

import NestedColumns.Json.Basic
import NestedColumns.Number.Layout

namespace NestedColumns

namespace Json

/-- Numbers from 10^-5 up to 10^16 are written with the point at its place, others with a signed
exponent; of two equally near digits the even one is taken. -/
def numberLayout : DecimalLayout where
  leastPositional := -5
  greatestPositional := 15
  plusSign := true
  tie := .even

def numberText : JsonNumber → String
  | .integer value => toString value
  | .float value => if value.isFinite then numberLayout.text value else "null"

/-- A hexadecimal digit. -/
def hexDigit (value : Nat) : Char :=
  Nat.digitChar value

/-- How one character is written in a string. -/
def escapeChar (c : Char) : List Char :=
  if c = '"' then ['\\', '"']
  else if c = '\\' then ['\\', '\\']
  else if c = '\x08' then ['\\', 'b']
  else if c = '\x0c' then ['\\', 'f']
  else if c = '\n' then ['\\', 'n']
  else if c = '\r' then ['\\', 'r']
  else if c = '\t' then ['\\', 't']
  else if c.toNat < 32 then
    ['\\', 'u', '0', '0', hexDigit (c.toNat / 16), hexDigit (c.toNat % 16)]
  else [c]

/-- A string between quotes. -/
def stringText (value : String) : String :=
  String.ofList ('"' :: value.toList.flatMap escapeChar ++ ['"'])

mutual

/-- The compact text of a value. -/
def text : Json → String
  | .null => "null"
  | .boolean value => if value then "true" else "false"
  | .number value => numberText value
  | .string value => stringText value
  | .array items => "[" ++ ",".intercalate (itemTexts items) ++ "]"
  | .object members => "\x7b" ++ ",".intercalate (memberTexts members) ++ "\x7d"
termination_by structural json => json

def itemTexts : List Json → List String
  | [] => []
  | item :: items => text item :: itemTexts items
termination_by structural items => items

def memberTexts : List (String × Json) → List String
  | [] => []
  | (key, value) :: members => (stringText key ++ ":" ++ text value) :: memberTexts members
termination_by structural members => members

end

end Json

end NestedColumns
