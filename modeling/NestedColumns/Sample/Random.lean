/-
Seeded random draws.

Random values are made by draws from a source. Nothing is said of a source but what it can be asked
for: a truth value, a number in the unit interval, a letter, a number from a range. A draw from an
empty range has no result.
-/

import NestedColumns.Number.Binary64

namespace NestedColumns.Sample

/-- **What random values are drawn from**, with states of type `σ`. -/
structure Source (σ : Type) where
  /-- The state at the start of a series. -/
  ofSeed : UInt64 → σ
  /-- Either truth value. -/
  boolean : σ → Bool × σ
  /-- A number in the unit interval, one excluded. -/
  unit : σ → Binary64 × σ
  /-- A small Latin letter. -/
  letter : σ → Char × σ
  /-- A natural number from the first up to but not including the last. -/
  range (first last : Nat) : σ → Option (Nat × σ)
  /-- An integer from the first up to but not including the last, from words of some width. -/
  intRange (width : Nat) (first last : Int) : σ → Option (Int × σ)

/-- A value that is drawn. -/
abbrev Draw (σ α : Type) := StateT σ Option α

namespace Draw

variable {σ α : Type}

/-- A draw that always has a result. -/
def always (next : σ → α × σ) : Draw σ α :=
  fun state => some (next state)

/-- True with the given likelihood. -/
def chance (source : Source σ) (likelihood : Binary64) : Draw σ Bool := do
  return (← always source.unit).isLess likelihood

/-- Several values, drawn one after the other. -/
def times (draw : Draw σ α) : Nat → Draw σ (List α)
  | 0 => return []
  | count + 1 => do
    let first ← draw
    let rest ← times draw count
    return first :: rest

/-- A word of small Latin letters. -/
def letters (source : Source σ) (count : Nat) : Draw σ String := do
  return String.ofList (← times (always source.letter) count)

/-- The value that is drawn from a state. -/
def from? (draw : Draw σ α) (state : σ) : Option α :=
  (StateT.run draw state).map (·.1)

end Draw

end NestedColumns.Sample
