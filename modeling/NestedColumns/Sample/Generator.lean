/-
The generator of random words.

A generator has a state of 64 bits, to which every draw adds a fixed odd number; the word that is
drawn mixes the two halves of a product of the new state. Draws from a range come from one word by
multiplication, and are repeated as long as the word falls into the part that would make some
numbers more likely.
-/

import NestedColumns.Sample.Random

namespace NestedColumns.Sample

/-- A generator of random words. -/
structure Generator where
  state : UInt64

namespace Generator

/-- What every draw adds to the state. -/
def increment : UInt64 := 0x2d358dccaa6c78a5

/-- What one factor of the product is mixed with. -/
def mixer : UInt64 := 0x8bb84b93962eacc9

/-- The word that is drawn in a state: the two halves of a product, mixed. -/
def wordOf (state : UInt64) : UInt64 :=
  let product := state.toNat * (state ^^^ mixer).toNat
  UInt64.ofNat product ^^^ UInt64.ofNat (product / UInt64.size)

/-- A word of 64 bits. -/
def word (generator : Generator) : Nat × Generator :=
  let state := generator.state + increment
  ((wordOf state).toNat, ⟨state⟩)

/-- The low bits of a word. -/
def bits (count : Nat) (generator : Generator) : Nat × Generator :=
  let drawn := generator.word
  (drawn.1 % Nat.pow 2 count, drawn.2)

/-- How often a draw is repeated at most: after so many words every state has come. -/
def maxRepeats : Nat := UInt64.size

/-- A number below `bound` from words of `width` bits, repeated while the word lies below
`threshold` in its share of the range. -/
def belowFrom (width bound threshold : Nat) : Nat → Nat × Generator → Nat × Generator
  | 0, drawn => (drawn.1 * bound / Nat.pow 2 width, drawn.2)
  | repeats + 1, drawn =>
    if drawn.1 * bound % Nat.pow 2 width < threshold then
      belowFrom width bound threshold repeats (bits width drawn.2)
    else (drawn.1 * bound / Nat.pow 2 width, drawn.2)

/-- A number below `bound` from a first word of `width` bits, repeated at most so often. -/
def belowWith (width bound repeats : Nat) (drawn : Nat × Generator) : Nat × Generator :=
  if drawn.1 * bound % Nat.pow 2 width < bound then
    belowFrom width bound ((Nat.pow 2 width - bound) % bound) repeats drawn
  else (drawn.1 * bound / Nat.pow 2 width, drawn.2)

/-- A number below `bound` from words of `width` bits. -/
def below (width bound : Nat) (generator : Generator) : Nat × Generator :=
  belowWith width bound maxRepeats (bits width generator)

/-- A natural number from `first` up to but not including `last`. -/
def range (first last : Nat) (generator : Generator) : Option (Nat × Generator) :=
  if first < last then
    let drawn := below 64 (last - first) generator
    some (first + drawn.1, drawn.2)
  else none

/-- An integer from `first` up to but not including `last`, from words of `width` bits. -/
def intRange (width : Nat) (first last : Int) (generator : Generator) : Option (Int × Generator) :=
  if first < last then
    let drawn := below width (last - first).toNat generator
    some (first + drawn.1, drawn.2)
  else none

/-- A number in the unit interval, one excluded: 63 bits as a fraction, repeated while rounding
reaches one. -/
def unitFrom : Nat → Generator → Binary64 × Generator
  | 0, generator => (Binary64.zero, generator)
  | repeats + 1, generator =>
    let drawn := generator.word
    let value := Binary64.ofRatio false (drawn.1 / 2) (Nat.pow 2 63)
    if value.isLess (Binary64.ofRatio false 1 1) then (value, drawn.2)
    else unitFrom repeats drawn.2

/-- A small Latin letter. -/
def letter (generator : Generator) : Char × Generator :=
  let drawn := below 64 26 generator
  (Char.ofNat ('a'.toNat + drawn.1), drawn.2)

/-- Either truth value. -/
def boolean (generator : Generator) : Bool × Generator :=
  let drawn := generator.word
  (drawn.1 % 2 = 0, drawn.2)

/-- **Generators as a source of random draws.** -/
def source : Source Generator where
  ofSeed := Generator.mk
  boolean := boolean
  unit := unitFrom maxRepeats
  letter := letter
  range := range
  intRange := intRange

end Generator

end NestedColumns.Sample
