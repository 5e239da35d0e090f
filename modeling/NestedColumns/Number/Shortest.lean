/-
The shortest decimal text of a binary number.

The reals that round to a finite number form an interval around it, with its ends if and only if the
significand is even. `shortest` tries the decimal grids of one digit, two digits, and so on, and
takes from the first grid that meets the interval the point nearest to the number. Seventeen digits
always suffice. All comparisons are between natural numbers, in quarters of the unit 2^-1074.
-/

import NestedColumns.Number.Binary64

namespace NestedColumns

/-- The decimal number `digits * 10 ^ exponent`. -/
structure Decimal where
  digits : Nat
  exponent : Int
  deriving DecidableEq

/-- Which of two equally near decimal points is taken. -/
inductive TieRule where
  /-- The one further from zero. -/
  | away
  /-- The one whose last digit is even. -/
  | even
  deriving DecidableEq

namespace Decimal

/-- Trailing zeros moved into the exponent, at most `limit` of them. -/
def trim : Nat → Decimal → Decimal
  | 0, d => d
  | limit + 1, d =>
    if d.digits % 10 = 0 then trim limit ⟨d.digits / 10, d.exponent + 1⟩ else d

/-- The decimal exponent of the leading digit. -/
def leadingExponent (d : Decimal) : Int :=
  d.exponent + ((Nat.toDigits 10 d.digits).length - 1 : Nat)

end Decimal

namespace Binary64

/-- The magnitude in units of 2^-1074. -/
def units (x : Binary64) : Nat :=
  x.significand * Nat.pow 2 x.power

/-- The lower end of the interval of reals that round to the magnitude, in quarter units. The
distance to the next smaller magnitude is halved where the significand starts a new power of two. -/
def lowerEnd (x : Binary64) : Nat :=
  let gap := 2 * Nat.pow 2 x.power
  let below := if x.significand = implicitBit && x.power ≠ 0 then gap / 2 else gap
  4 * x.units - below

/-- The upper end of that interval, in quarter units. -/
def upperEnd (x : Binary64) : Nat :=
  4 * x.units + 2 * Nat.pow 2 x.power

/-- The decimal exponent of the leading digit of a positive magnitude. -/
def decimalExponent (x : Binary64) : Int :=
  if unitsPerOne ≤ x.units then
    (Nat.toDigits 10 (x.units / unitsPerOne)).length - 1
  else
    -((Nat.toDigits 10 ((unitsPerOne + x.units - 1) / x.units - 1)).length : Int)

/-- The point of the grid of multiples of 10^`exponent` that is nearest to the magnitude among its
two neighbours on the grid that round to it, if there is one. -/
def nearestOnGrid (tie : TieRule) (x : Binary64) (exponent : Int) : Option Nat :=
  let stretch := Nat.pow 10 (-exponent).toNat
  let step := 4 * unitsPerOne * Nat.pow 10 exponent.toNat
  let value := 4 * x.units * stretch
  let lower := x.lowerEnd * stretch
  let upper := x.upperEnd * stretch
  let closed := x.significand % 2 == 0
  let fits := fun (point : Nat) =>
    let scaled := point * step
    if closed then lower ≤ scaled && scaled ≤ upper else lower < scaled && scaled < upper
  let below := value / step
  let above := below + 1
  if fits below then
    if fits above then
      let down := value - below * step
      let up := above * step - value
      if down < up then some below
      else if up < down then some above
      else match tie with
        | .away => some above
        | .even => some (if below % 2 = 0 then below else above)
    else some below
  else if fits above then some above
  else none

/-- The decimal of fewest digits that rounds to a finite magnitude other than zero, and of those the
one nearest to it. -/
def shortest (tie : TieRule) (x : Binary64) : Decimal :=
  let leading := x.decimalExponent
  let grid := fun (digitCount : Nat) =>
    let exponent := leading - digitCount
    (x.nearestOnGrid tie exponent).map fun digits => Decimal.trim 17 ⟨digits, exponent⟩
  ((List.range 17).findSome? grid).getD ⟨0, 0⟩

end Binary64

end NestedColumns
