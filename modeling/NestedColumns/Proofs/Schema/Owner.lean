/-
Owners of repetition levels.

* `Path.ownerIndex_eq_some_iff` — the owner of a level stands at the repeated field of a path with
  that many repeated fields up to it; every level from 1 to the greatest of the path has an owner
  (`Path.exists_ownerIndex`).
* `Path.le_repetitionLevel_shared_iff` — two paths share a level exactly if they share its owner.
* `Schema.IsAccepted.mem_ids_owner_iff` — in an accepted schema, the leaves at or below the owner of
  a level are those that share this level.
-/

import NestedColumns.Proofs.Schema.Sharing

namespace NestedColumns

namespace Path

theorem repetitionLevel_cons (label : Label) (path : Path) :
    repetitionLevel (label :: path) =
      (if label.cardinality.isRepeated then 1 else 0) + repetitionLevel path := by
  rw [repetitionLevel, List.countP_cons, Nat.add_comm]
  rfl

/-- The field at an index of a path is repeated, and up to it the path reaches the level, counted on
from `passed`. -/
def Owns (passed level : Level) (path : Path) (index : Nat) : Prop :=
  ∃ label, path[index]? = some label ∧ label.cardinality.isRepeated = true ∧
    passed + repetitionLevel (path.take (index + 1)) = level

section Owns

variable {passed level : Level} {label : Label} {path : Path} {index : Nat}

theorem Owns.lt (owns : Owns passed level path index) : passed < level := by
  obtain ⟨label, found, repeats, reached⟩ := owns
  rw [List.take_add_one, found, Option.toList_some, repetitionLevel_append,
    repetitionLevel_singleton_of_repeated repeats] at reached
  lia

theorem owns_cons_zero :
    Owns passed level (label :: path) 0 ↔ label.cardinality.isRepeated = true ∧ passed + 1 = level := by
  constructor
  · rintro ⟨owner, found, repeats, reached⟩
    cases found
    rw [List.take_succ_cons, List.take_zero, repetitionLevel_singleton_of_repeated repeats] at reached
    exact ⟨repeats, reached⟩
  · rintro ⟨repeats, reached⟩
    refine ⟨label, rfl, repeats, ?_⟩
    rw [List.take_succ_cons, List.take_zero, repetitionLevel_singleton_of_repeated repeats]
    exact reached

theorem owns_cons_succ : Owns passed level (label :: path) (index + 1) ↔
    Owns (passed + if label.cardinality.isRepeated then 1 else 0) level path index := by
  unfold Owns
  rw [List.getElem?_cons_succ, List.take_succ_cons, repetitionLevel_cons, ← Nat.add_assoc]

end Owns

theorem ownerFrom_eq_some_iff {level : Level} {path : Path} {passed : Level} {index : Nat} :
    ownerFrom passed level path = some index ↔ Owns passed level path index := by
  induction path generalizing passed index with
  | nil => simp [ownerFrom, Owns]
  | cons label rest ih =>
    -- a field that does not own the level leaves it to the rest of the path
    have onward : ∀ {through : Level},
        through = passed + (if label.cardinality.isRepeated then 1 else 0) →
        ¬ (label.cardinality.isRepeated = true ∧ passed + 1 = level) →
        ((ownerFrom through level rest).map (· + 1) = some index ↔
          Owns passed level (label :: rest) index) := by
      intro through counted notHere
      cases index with
      | zero => simp [owns_cons_zero, notHere]
      | succ index =>
        rw [owns_cons_succ, ← counted, ← ih]
        simp
    rw [ownerFrom]
    by_cases repeats : label.cardinality.isRepeated = true
    · by_cases here : passed + 1 = level
      · rw [if_pos (by simp [repeats, here])]
        cases index with
        | zero => exact iff_of_true rfl (owns_cons_zero.mpr ⟨repeats, here⟩)
        | succ index =>
          refine iff_of_false (by simp) fun owns => ?_
          have later := (owns_cons_succ.mp owns).lt
          rw [if_pos repeats] at later
          exact absurd here (Nat.ne_of_lt later)
      · rw [if_neg (by simp [repeats, here]), if_pos repeats]
        exact onward (by rw [if_pos repeats]) fun both => here both.2
    · rw [if_neg (by simp [repeats]), if_neg repeats]
      exact onward (by rw [if_neg repeats]; rfl) fun both => repeats both.1

/-- **The owner of a level** is the repeated field with that many repeated fields up to it. -/
theorem ownerIndex_eq_some_iff {level : Level} {path : Path} {index : Nat} :
    ownerIndex level path = some index ↔
      ∃ label, path[index]? = some label ∧ label.cardinality.isRepeated = true ∧
        repetitionLevel (path.take (index + 1)) = level := by
  unfold ownerIndex
  rw [ownerFrom_eq_some_iff, Owns]
  simp only [Nat.zero_add]

theorem exists_ownerFrom {level : Level} {path : Path} {passed : Level} (above : passed < level)
    (within : level ≤ passed + repetitionLevel path) :
    ∃ index, ownerFrom passed level path = some index := by
  induction path generalizing passed with
  | nil =>
    unfold repetitionLevel at within
    rw [List.countP_nil] at within
    lia
  | cons label rest ih =>
    rw [repetitionLevel_cons] at within
    rw [ownerFrom]
    by_cases repeats : label.cardinality.isRepeated = true
    · rw [if_pos repeats] at within
      by_cases here : passed + 1 = level
      · exact ⟨0, if_pos (by simp [repeats, here])⟩
      · obtain ⟨index, found⟩ := ih (by lia : passed + 1 < level)
          (by lia : level ≤ passed + 1 + repetitionLevel rest)
        exact ⟨index + 1, by rw [if_neg (by simp [repeats, here]), if_pos repeats, found]; rfl⟩
    · rw [if_neg repeats] at within
      obtain ⟨index, found⟩ := ih above (by lia : level ≤ passed + repetitionLevel rest)
      exact ⟨index + 1, by rw [if_neg (by simp [repeats]), if_neg repeats, found]; rfl⟩

/-- The owner of a level is the repeated field with that number on the path, counted from the first
one above `passed`. -/
theorem bind_ownerFrom {level : Level} {path : Path} {passed : Level} (above : passed < level) :
    (ownerFrom passed level path).bind (path[·]?) =
      (path.filter (·.cardinality.isRepeated))[level - (passed + 1)]? := by
  induction path generalizing passed with
  | nil => rfl
  | cons label rest ih =>
    rw [ownerFrom]
    by_cases repeats : label.cardinality.isRepeated = true
    · rw [List.filter_cons_of_pos (by exact repeats)]
      by_cases here : passed + 1 = level
      · rw [if_pos (by simp [repeats, here]), here, Nat.sub_self]
        rfl
      · have further : level - (passed + 1) = level - (passed + 1 + 1) + 1 := by lia
        rw [if_neg (by simp [repeats, here]), if_pos repeats, Option.bind_map, further,
          List.getElem?_cons_succ, ← ih (by lia)]
        rfl
    · rw [List.filter_cons_of_neg (by exact repeats), if_neg (by simp [repeats]), if_neg repeats,
        Option.bind_map, ← ih above]
      rfl

/-- Every level from 1 to the greatest of a path has an owner. -/
theorem exists_ownerIndex {level : Level} {path : Path} (positive : 0 < level)
    (within : level ≤ repetitionLevel path) : ∃ index, ownerIndex level path = some index :=
  exists_ownerFrom positive (by lia)

/-- A repeated field on a path owns its own level. -/
theorem ownerIndex_of_isPrefix {path other : Path} {label : Label}
    (repeats : label.cardinality.isRepeated = true) (leads : path ++ [label] <+: other) :
    ownerIndex (repetitionLevel (path ++ [label])) other = some path.length := by
  obtain ⟨rest, rfl⟩ := leads
  rw [ownerIndex_eq_some_iff]
  refine ⟨label, by simp, repeats, ?_⟩
  rw [List.take_left' (by simp)]

/-- **Two paths share a level exactly if they share its owner.** -/
theorem le_repetitionLevel_shared_iff {level : Level} {path other : Path} {index : Nat}
    (owner : ownerIndex level path = some index) :
    level ≤ repetitionLevel (shared path other) ↔ index < (shared path other).length := by
  obtain ⟨label, found, repeats, total⟩ := ownerIndex_eq_some_iff.mp owner
  have common := shared_isPrefix_left path other
  have inside := (List.getElem?_eq_some_iff.mp found).1
  constructor
  · intro reaches
    by_contra short
    have within : shared path other <+: path.take index :=
      List.prefix_of_prefix_length_le common (List.take_prefix _ _)
        (by rw [List.length_take]; lia)
    have less := repetitionLevel_le_of_isPrefix within
    rw [List.take_add_one, found, Option.toList_some, repetitionLevel_append,
      repetitionLevel_singleton_of_repeated repeats] at total
    lia
  · intro long
    have within : path.take (index + 1) <+: shared path other :=
      List.prefix_of_prefix_length_le (List.take_prefix _ _) common
        (by rw [List.length_take]; lia)
    rw [← total]
    exact repetitionLevel_le_of_isPrefix within

end Path

namespace Schema

/-- **The fields at or below the owner of a level are those that share the level.** -/
theorem IsAccepted.mem_ids_owner_iff {schema : Schema} (accepted : schema.IsAccepted) {a b : Node}
    (first : a ∈ schema.nodes) (second : b ∈ schema.nodes) {level : Level} {owner : Label}
    (owns : a.repeatedAncestorAt? level = some owner) :
    owner.id ∈ Path.ids b.path ↔ level ≤ b.commonRepetition a := by
  obtain ⟨index, found, atIndex⟩ := Option.bind_eq_some_iff.mp owns
  rw [accepted.mem_ids_iff first second atIndex, ← Path.le_repetitionLevel_shared_iff found,
    accepted.commonRepetition_comm second first]
  rfl

end Schema

end NestedColumns
