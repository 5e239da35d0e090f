/-
Integers of 64 bits are not rounded to infinity.

Rounding brings a quotient to at most 53 bits by a power of two. The power counts the bits of the
quotient, so an integer of 64 bits has a power far below that of the infinities.
-/

import Mathlib.Algebra.Group.Nat.Defs
import NestedColumns.Number.Binary64

namespace NestedColumns.Binary64

/-- Rounding adds one at most. -/
theorem roundQuotient_le (numerator denominator : Nat) :
    roundQuotient numerator denominator ≤ numerator / denominator + 1 := by
  unfold roundQuotient
  dsimp only
  split <;> omega

/-- Brought to 53 bits, a natural number is rounded to `2 ^ 53` at most. -/
theorem roundQuotient_two_pow_le (scaled : Nat) :
    roundQuotient scaled (2 ^ (scaled.log2 + 1 - 53)) ≤ 2 ^ 53 := by
  have bits : scaled < 2 ^ 53 * 2 ^ (scaled.log2 + 1 - 53) := by
    rw [← Nat.pow_add]
    exact Nat.lt_of_lt_of_le Nat.lt_log2_self (Nat.pow_le_pow_right Nat.two_pos (by omega))
  have quotient : scaled / 2 ^ (scaled.log2 + 1 - 53) < 2 ^ 53 :=
    (Nat.div_lt_iff_lt_mul (Nat.two_pow_pos _)).mpr bits
  have rounded := roundQuotient_le scaled (2 ^ (scaled.log2 + 1 - 53))
  omega

/-- A product has no more bits than its factors have together. -/
theorem log2_mul_lt {value bits : Nat} (small : value < 2 ^ bits) (units : Nat) :
    (value * units).log2 < bits + (units.log2 + 1) := by
  by_cases zero : value * units = 0
  · rw [zero]
    exact Nat.add_pos_right bits (Nat.succ_pos _)
  · rw [Nat.log2_lt zero, Nat.pow_add]
    exact Nat.mul_lt_mul_of_lt_of_lt small Nat.lt_log2_self

/-- The magnitude bits of a natural number of 64 bits are below those of the infinities. -/
theorem roundMagnitude_lt {value : Nat} (small : value < 2 ^ 64) :
    roundMagnitude value 1 < infinityBits := by
  have units : unitsPerOne.log2 = 1074 := by decide +kernel
  have log := log2_mul_lt small unitsPerOne
  have rounded := roundQuotient_two_pow_le (value * unitsPerOne)
  have power : ((value * unitsPerOne).log2 + 1 - 53) * implicitBit ≤ 1086 * implicitBit :=
    Nat.mul_le_mul_right _ (by omega)
  have whole : 1086 * implicitBit + 2 ^ 53 < infinityBits := by decide
  unfold roundMagnitude
  dsimp only
  rw [Nat.div_one, Nat.one_mul, Nat.pow_eq]
  omega

/-- The sign is not among the magnitude bits. -/
theorem magnitudeBits_ofMagnitude {negative : Bool} {magnitude : Nat} (small : magnitude < signBit) :
    (ofMagnitude negative magnitude).magnitudeBits = magnitude := by
  have bit : signBit = 2 ^ 63 := rfl
  unfold magnitudeBits ofMagnitude
  rw [bit] at small ⊢
  rw [UInt64.toNat_ofNat']
  cases negative <;> simp <;> omega

/-- **An integer of 64 bits, with or without sign, has a finite number nearest to it.** -/
theorem isFinite_ofInt {value : Int} (small : value.natAbs < 2 ^ 64) :
    (ofInt value).isFinite = true := by
  have magnitude := roundMagnitude_lt small
  have inside : infinityBits < signBit := by decide
  unfold isFinite ofInt ofRatio
  rw [magnitudeBits_ofMagnitude (Nat.lt_trans magnitude inside)]
  exact decide_eq_true magnitude

end NestedColumns.Binary64
