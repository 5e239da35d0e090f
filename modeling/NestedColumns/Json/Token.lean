/-
The words of a JSON text.

A text is cut into brackets, commas, colons, strings and plain words. What a number or a string
stands for is left open here: a number keeps its digits, and a string its characters and those
halves of surrogate pairs that it spells by escapes.
-/

namespace NestedColumns.Json

/-- One character of a string, or half of a surrogate pair. -/
inductive Piece where
  | char (value : Char)
  | half (code : Nat)
  deriving DecidableEq

/-- A number as it is written. -/
structure Numeral where
  negative : Bool
  whole : List Char
  /-- The digits after the point, if there is one. -/
  fraction : Option (List Char)
  /-- The exponent, if there is one. -/
  exponent : Option Int
  deriving DecidableEq

/-- A word of a JSON text. -/
inductive Token where
  | leftBrace
  | rightBrace
  | leftBracket
  | rightBracket
  | comma
  | colon
  | null
  | boolean (value : Bool)
  | number (numeral : Numeral)
  | string (pieces : List Piece)
  deriving DecidableEq

/-! ### Strings -/

/-- The value of a hexadecimal digit. -/
def hexValue? (c : Char) : Option Nat :=
  if '0' ≤ c ∧ c ≤ '9' then some (c.toNat - '0'.toNat)
  else if 'a' ≤ c ∧ c ≤ 'f' then some (c.toNat - 'a'.toNat + 10)
  else if 'A' ≤ c ∧ c ≤ 'F' then some (c.toNat - 'A'.toNat + 10)
  else none

/-- The code unit of four hexadecimal digits, as a character or half of a pair. -/
def pieceOfHex? (a b c d : Char) : Option Piece := do
  let high := (← hexValue? a) * 16 + (← hexValue? b)
  let low := (← hexValue? c) * 16 + (← hexValue? d)
  let code := high * 256 + low
  return if 0xD800 ≤ code ∧ code < 0xE000 then .half code else .char (Char.ofNat code)

/-- The character of a short escape. -/
def escaped? : Char → Option Char
  | '"' => some '"'
  | '\\' => some '\\'
  | '/' => some '/'
  | 'b' => some '\x08'
  | 'f' => some '\x0c'
  | 'n' => some '\n'
  | 'r' => some '\r'
  | 't' => some '\t'
  | _ => none

/-- The pieces of a string up to its closing quote, and the text behind it. -/
def scanString : List Char → Option (List Piece × List Char)
  | [] => none
  | '"' :: rest => some ([], rest)
  | '\\' :: 'u' :: a :: b :: c :: d :: rest => do
    let piece ← pieceOfHex? a b c d
    let (pieces, behind) ← scanString rest
    return (piece :: pieces, behind)
  | '\\' :: c :: rest => do
    let char ← escaped? c
    let (pieces, behind) ← scanString rest
    return (.char char :: pieces, behind)
  | c :: rest =>
    if c.toNat < 32 || c == '\\' then none
    else do
      let (pieces, behind) ← scanString rest
      return (.char c :: pieces, behind)

/-- The string that pieces spell; halves of pairs count only two by two, the high one first. -/
def spell? : List Piece → Option (List Char)
  | [] => some []
  | .char c :: rest => (spell? rest).map (c :: ·)
  | .half high :: .half low :: rest =>
    if high < 0xDC00 ∧ 0xDC00 ≤ low then
      (spell? rest).map (Char.ofNat (0x10000 + (high - 0xD800) * 0x400 + (low - 0xDC00)) :: ·)
    else none
  | .half _ :: _ => none

/-! ### Numbers -/

/-- The digits at the start of a text, of which there must be one, and the text behind them. -/
def scanDigits (text : List Char) : Option (List Char × List Char) :=
  let digits := text.takeWhile Char.isDigit
  if digits.isEmpty then none else some (digits, text.dropWhile Char.isDigit)

/-- The number that decimal digits spell. -/
def digitsValue (digits : List Char) : Nat :=
  digits.foldl (fun value digit => value * 10 + (digit.toNat - '0'.toNat)) 0

/-- The digits before the point: a zero alone, or digits that do not start with zero. -/
def scanWhole : List Char → Option (List Char × List Char)
  | '0' :: rest => some (['0'], rest)
  | text => scanDigits text

/-- The point and the digits behind it, if there is a point. -/
def scanFraction : List Char → Option (Option (List Char) × List Char)
  | '.' :: rest => do
    let (digits, behind) ← scanDigits rest
    return (some digits, behind)
  | text => some (none, text)

/-- The exponent, if there is one. -/
def scanExponent : List Char → Option (Option Int × List Char)
  | mark :: rest =>
    if mark == 'e' || mark == 'E' then
      match rest with
      | '-' :: more => (scanDigits more).map fun (digits, behind) =>
        (some (-(digitsValue digits : Int)), behind)
      | '+' :: more => (scanDigits more).map fun (digits, behind) =>
        (some (digitsValue digits : Int), behind)
      | more => (scanDigits more).map fun (digits, behind) =>
        (some (digitsValue digits : Int), behind)
    else some (none, mark :: rest)
  | [] => some (none, [])

/-- A number without its sign, and the text behind it. -/
def scanNumber (negative : Bool) (text : List Char) : Option (Numeral × List Char) := do
  let (whole, text) ← scanWhole text
  let (fraction, text) ← scanFraction text
  let (exponent, text) ← scanExponent text
  return (⟨negative, whole, fraction, exponent⟩, text)

/-! ### Words -/

/-- A character between words. -/
def isBlank (c : Char) : Bool :=
  c == ' ' || c == '\n' || c == '\t' || c == '\r'

/-- The word at the start of a text that does not start with a blank, and the text behind it. -/
def scanToken : List Char → Option (Token × List Char)
  | '{' :: rest => some (.leftBrace, rest)
  | '}' :: rest => some (.rightBrace, rest)
  | '[' :: rest => some (.leftBracket, rest)
  | ']' :: rest => some (.rightBracket, rest)
  | ',' :: rest => some (.comma, rest)
  | ':' :: rest => some (.colon, rest)
  | '"' :: rest => (scanString rest).map fun (pieces, behind) => (.string pieces, behind)
  | 'n' :: 'u' :: 'l' :: 'l' :: rest => some (.null, rest)
  | 't' :: 'r' :: 'u' :: 'e' :: rest => some (.boolean true, rest)
  | 'f' :: 'a' :: 'l' :: 's' :: 'e' :: rest => some (.boolean false, rest)
  | '-' :: rest => (scanNumber true rest).map fun (numeral, behind) => (.number numeral, behind)
  | text => (scanNumber false text).map fun (numeral, behind) => (.number numeral, behind)

/-- The words of a text, if it consists of words and blanks. -/
def tokens? (text : List Char) : Option (List Token) :=
  match text.dropWhile isBlank with
  | [] => some []
  | word => do
    let (token, rest) ← scanToken word
    if _ : rest.length < text.length then
      let more ← tokens? rest
      return token :: more
    else none
termination_by text.length

end NestedColumns.Json
