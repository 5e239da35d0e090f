/-
Binary floating-point numbers of 64 bits, held as their bits.

The magnitude of a finite number is `significand * 2 ^ power` units of 2^-1074, the least positive
magnitude, so finite numbers are compared and produced by exact arithmetic on natural numbers.
`ofRatio` rounds a quotient to the nearest number, an exact half to the even significand.
-/

namespace NestedColumns

/-- A number of 64 bits: a sign, eleven exponent bits and 52 fraction bits. -/
structure Binary64 where
  bits : UInt64
  deriving DecidableEq

namespace Binary64

/-! ### Reading the bits -/

/-- The sign bit, which is also one beyond the greatest magnitude bits. -/
def signBit : Nat :=
  Nat.pow 2 63

/-- The implicit bit of a significand, which is also one beyond the greatest fraction. -/
def implicitBit : Nat :=
  Nat.pow 2 52

/-- The unit in which magnitudes are counted is the inverse of this number. -/
def unitsPerOne : Nat :=
  Nat.pow 2 1074

/-- The top bit is the sign. -/
def isNegative (x : Binary64) : Bool :=
  signBit ≤ x.bits.toNat

/-- The bits without the sign; among numbers that are not NaN they order the magnitudes. -/
def magnitudeBits (x : Binary64) : Nat :=
  x.bits.toNat % signBit

/-- The magnitude bits of the infinities: all exponent bits set and no fraction. -/
def infinityBits : Nat :=
  2047 * implicitBit

def isNaN (x : Binary64) : Bool :=
  infinityBits < x.magnitudeBits

def isFinite (x : Binary64) : Bool :=
  x.magnitudeBits < infinityBits

/-- The integer significand: the fraction bits, with the implicit bit unless the exponent bits are
all zero. -/
def significand (x : Binary64) : Nat :=
  if x.magnitudeBits < implicitBit then x.magnitudeBits
  else implicitBit + x.magnitudeBits % implicitBit

/-- The power of two by which the significand is scaled, counted from the least positive
magnitude. -/
def power (x : Binary64) : Nat :=
  x.magnitudeBits / implicitBit - 1

/-- The position of a number in numerical order; both zeros have position 0. -/
def rank (x : Binary64) : Int :=
  if x.isNegative then -(x.magnitudeBits : Int) else x.magnitudeBits

/-! ### Comparison -/

/-- Numerical order, in which NaN is below nothing and above nothing. -/
def isLess (x y : Binary64) : Bool :=
  !x.isNaN && !y.isNaN && x.rank < y.rank

/-- Numerical equality: NaN differs from itself and the two zeros are equal. -/
def isEqual (x y : Binary64) : Bool :=
  !x.isNaN && !y.isNaN && x.rank == y.rank

/-! ### Rounding -/

/-- The number with the given sign and magnitude bits. -/
def ofMagnitude (negative : Bool) (magnitude : Nat) : Binary64 :=
  ⟨UInt64.ofNat ((if negative then signBit else 0) + magnitude)⟩

/-- Positive zero. -/
def zero : Binary64 := ofMagnitude false 0

/-- A quotient rounded to the nearest natural number, a half to the even one. -/
def roundQuotient (numerator denominator : Nat) : Nat :=
  let quotient := numerator / denominator
  let twice := 2 * (numerator % denominator)
  if denominator < twice || (twice == denominator && quotient % 2 == 1) then quotient + 1
  else quotient

/-- The magnitude bits nearest to a quotient. The quotient, in units of 2^-1074, is brought to at
most 53 bits; adding the rounded significand to the shifted power also carries a significand that
rounding has pushed to 2^53 into the next power, and stops at infinity. -/
def roundMagnitude (numerator denominator : Nat) : Nat :=
  let scaled := numerator * unitsPerOne
  let power := (scaled / denominator).log2 + 1 - 53
  min infinityBits (power * implicitBit + roundQuotient scaled (denominator * Nat.pow 2 power))

/-- The number nearest to a quotient with a positive denominator. -/
def ofRatio (negative : Bool) (numerator denominator : Nat) : Binary64 :=
  ofMagnitude negative (roundMagnitude numerator denominator)

/-- The number nearest to an integer. -/
def ofInt (value : Int) : Binary64 :=
  ofRatio (value < 0) value.natAbs 1

/-- The number nearest to `digits * 10 ^ exponent`. A magnitude whose leading digit stands beyond
10^310 overflows and one whose leading digit stands below 10^-330 vanishes, whatever the rest. -/
def ofDecimal (negative : Bool) (digits : Nat) (exponent : Int) : Binary64 :=
  if digits = 0 then ofMagnitude negative 0
  else
    let leading := exponent + (Nat.toDigits 10 digits).length
    if 310 < leading then ofMagnitude negative infinityBits
    else if leading < -330 then ofMagnitude negative 0
    else if 0 ≤ exponent then ofRatio negative (digits * Nat.pow 10 exponent.toNat) 1
    else ofRatio negative digits (Nat.pow 10 (-exponent).toNat)

end Binary64

end NestedColumns
