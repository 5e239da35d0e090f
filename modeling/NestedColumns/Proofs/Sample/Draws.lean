/-
What random draws give.

`Draw.Gives draw holds` says that a draw has a result in every state of its source, and what holds of
it. It goes through a program step by step (`Gives.pure`, `Gives.bind`, `Gives.times`). Of the source
only `Source.IsInRange` is used: a draw from a range that is not empty lies in the range. A generator of
words is such a source (`Generator.isInRange_source`).
-/

import Mathlib.Algebra.Group.Nat.Defs
import NestedColumns.Sample.Generator

namespace NestedColumns.Sample

variable {σ : Type} {source : Source σ}

/-- **A source keeps to its ranges**: a number is drawn from every range that is not empty, and it lies
in the range. -/
structure Source.IsInRange (source : Source σ) : Prop where
  range : ∀ (first last : Nat) (state : σ), first < last →
    ∃ value next, source.range first last state = some (value, next) ∧ first ≤ value ∧ value < last
  intRange : ∀ (width : Nat) (first last : Int) (state : σ), first < last →
    ∃ value next, source.intRange width first last state = some (value, next) ∧
      first ≤ value ∧ value < last

namespace Draw

variable {α β : Type}

/-- **A draw gives a value of which something holds**, whatever the state of the source. -/
def Gives (draw : Draw σ α) (holds : α → Prop) : Prop :=
  ∀ state, ∃ value next, draw.run state = some (value, next) ∧ holds value

/-! ### Programs of draws -/

theorem Gives.pure {holds : α → Prop} {value : α} (known : holds value) :
    Gives (pure value : Draw σ α) holds :=
  fun state => ⟨value, state, rfl, known⟩

/-- A draw that depends on another. -/
theorem Gives.bind {draw : Draw σ α} {next : α → Draw σ β} {first : α → Prop} {holds : β → Prop}
    (gives : draw.Gives first) (each : ∀ value, first value → (next value).Gives holds) :
    Gives (draw >>= next) holds := by
  intro state
  obtain ⟨value, between, drawn, known⟩ := gives state
  obtain ⟨result, last, drawnNext, holding⟩ := each value known between
  refine ⟨result, last, ?_, holding⟩
  rw [StateT.run_bind, drawn]
  exact drawnNext

theorem Gives.mono {draw : Draw σ α} {holds weaker : α → Prop} (gives : draw.Gives holds)
    (implies : ∀ value, holds value → weaker value) : draw.Gives weaker := by
  intro state
  obtain ⟨value, next, drawn, known⟩ := gives state
  exact ⟨value, next, drawn, implies value known⟩

/-- A draw that is made if a condition holds. -/
theorem Gives.ite {condition : Prop} [Decidable condition] {draw other : Draw σ α}
    {holds : α → Prop} (gives : condition → draw.Gives holds)
    (gives' : ¬ condition → other.Gives holds) :
    Gives (if condition then draw else other) holds := by
  by_cases known : condition
  · rw [if_pos known]
    exact gives known
  · rw [if_neg known]
    exact gives' known

/-- So many values, and of each the same holds. -/
theorem Gives.times {draw : Draw σ α} {holds : α → Prop} (gives : draw.Gives holds) (count : Nat) :
    (times draw count).Gives fun values => values.length = count ∧ ∀ value ∈ values, holds value := by
  induction count with
  | zero => exact .pure ⟨rfl, List.forall_mem_nil _⟩
  | succ count ih =>
    refine gives.bind fun first known => ih.bind fun rest later => .pure ⟨?_, ?_⟩
    · rw [List.length_cons, later.1]
    · exact List.forall_mem_cons.mpr ⟨known, later.2⟩

/-- What a draw gives is had from every state. -/
theorem Gives.exists_from? {draw : Draw σ α} {holds : α → Prop} (gives : draw.Gives holds)
    (state : σ) : ∃ value, draw.from? state = some value ∧ holds value := by
  obtain ⟨value, next, drawn, known⟩ := gives state
  refine ⟨value, ?_, known⟩
  rw [from?, drawn]
  rfl

/-! ### Draws from a source -/

theorem gives_always (next : σ → α × σ) : (always next).Gives fun _ => True :=
  fun _ => ⟨_, _, rfl, trivial⟩

theorem gives_chance (likelihood : Binary64) : (chance source likelihood).Gives fun _ => True :=
  (gives_always source.unit).bind fun _ _ => .pure trivial

theorem gives_letters (count : Nat) : (letters source count).Gives fun _ => True :=
  ((gives_always source.letter).times count).bind fun _ _ => .pure trivial

end Draw

theorem Source.IsInRange.gives_range (inRange : source.IsInRange) {first last : Nat}
    (less : first < last) :
    Draw.Gives (source.range first last) fun value => first ≤ value ∧ value < last :=
  fun state => inRange.range first last state less

theorem Source.IsInRange.gives_intRange (inRange : source.IsInRange) (width : Nat) {first last : Int}
    (less : first < last) :
    Draw.Gives (source.intRange width first last) fun value => first ≤ value ∧ value < last :=
  fun state => inRange.intRange width first last state less

/-! ### Generators keep to their ranges -/

namespace Generator

/-- The share of a range that a word falls into. -/
theorem share_lt {width bound drawn : Nat} (positive : 0 < bound) (small : drawn < 2 ^ width) :
    drawn * bound / Nat.pow 2 width < bound := by
  rw [Nat.pow_eq, Nat.div_lt_iff_lt_mul (Nat.two_pow_pos width), Nat.mul_comm bound]
  exact Nat.mul_lt_mul_of_pos_right small positive

theorem bits_lt (count : Nat) (generator : Generator) : (bits count generator).1 < 2 ^ count :=
  Nat.mod_lt _ (Nat.two_pow_pos count)

theorem belowFrom_lt {width bound threshold : Nat} (positive : 0 < bound) {repeats : Nat} :
    ∀ {drawn : Nat × Generator}, drawn.1 < 2 ^ width →
      (belowFrom width bound threshold repeats drawn).1 < bound := by
  induction repeats with
  | zero => exact fun small => share_lt positive small
  | succ repeats ih =>
    intro drawn small
    rw [belowFrom]
    split
    · exact ih (bits_lt width drawn.2)
    · exact share_lt positive small

theorem belowWith_lt {width bound repeats : Nat} (positive : 0 < bound) {drawn : Nat × Generator}
    (small : drawn.1 < 2 ^ width) : (belowWith width bound repeats drawn).1 < bound := by
  unfold belowWith
  split
  · exact belowFrom_lt positive small
  · exact share_lt positive small

/-- A number below a bound is below it, however often it is drawn. -/
theorem below_lt (width : Nat) {bound : Nat} (positive : 0 < bound) (generator : Generator) :
    (below width bound generator).1 < bound :=
  belowWith_lt positive (bits_lt width generator)

/-- **Generators keep to their ranges.** -/
theorem isInRange_source : Generator.source.IsInRange where
  range := by
    intro first last generator less
    have small := below_lt 64 (Nat.sub_pos_of_lt less) generator
    exact ⟨_, _, if_pos less, by omega, by omega⟩
  intRange := by
    intro width first last generator less
    have positive : 0 < (last - first).toNat := by omega
    have small := below_lt width positive generator
    exact ⟨_, _, if_pos less, by omega, by omega⟩

end Generator

end NestedColumns.Sample
