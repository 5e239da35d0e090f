/-
How the shortest decimal text of a number is laid out.

A layout says for which exponents the point is written at its place, how an exponent is written
otherwise, and which of two equally near digits is taken. `DecimalLayout.text` lays out a number.
-/

import NestedColumns.Number.Shortest

namespace NestedColumns

/-- The decisions of a printer of floating-point numbers. -/
structure DecimalLayout where
  /-- The least decimal exponent for which the point stands at its place. -/
  leastPositional : Int
  /-- The greatest decimal exponent for which the point stands at its place. -/
  greatestPositional : Int
  /-- Whether an exponent that is not negative carries a plus sign. -/
  plusSign : Bool
  tie : TieRule

namespace DecimalLayout

/-- A run of zeros. -/
def zeros (count : Nat) : List Char :=
  List.replicate count '0'

/-- Digits with the point at its place and at least one digit on either side of it. -/
def positional (digits : List Char) (exponent : Int) : List Char :=
  if exponent < 0 then
    '0' :: '.' :: zeros (-exponent - 1).toNat ++ digits
  else
    let whole := exponent.toNat + 1
    if digits.length ≤ whole then digits ++ zeros (whole - digits.length) ++ ['.', '0']
    else digits.take whole ++ '.' :: digits.drop whole

/-- Digits with one of them before the point and an exponent; a single digit has no point. -/
def scientific (plusSign : Bool) (digits : List Char) (exponent : Int) : List Char :=
  let mantissa := match digits with
    | [] => ['0']
    | [digit] => [digit]
    | digit :: rest => digit :: '.' :: rest
  let sign := if exponent < 0 then ['-'] else if plusSign then ['+'] else []
  mantissa ++ 'e' :: sign ++ Nat.toDigits 10 exponent.natAbs

/-- The text of a finite magnitude. -/
def magnitudeText (layout : DecimalLayout) (x : Binary64) : List Char :=
  if x.magnitudeBits = 0 then ['0', '.', '0']
  else
    let decimal := x.shortest layout.tie
    let digits := Nat.toDigits 10 decimal.digits
    let exponent := decimal.leadingExponent
    if layout.leastPositional ≤ exponent && exponent ≤ layout.greatestPositional then
      positional digits exponent
    else
      scientific layout.plusSign digits exponent

/-- The text of a finite number; the sign of zero is kept. -/
def text (layout : DecimalLayout) (x : Binary64) : String :=
  String.ofList ((if x.isNegative then ['-'] else []) ++ layout.magnitudeText x)

end DecimalLayout

end NestedColumns
