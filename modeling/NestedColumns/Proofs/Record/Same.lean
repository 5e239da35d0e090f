/-
Records that show the same fields.

`Value.Same` compares values as they are read: scalars bit by bit, records by the fields that hold
values, at every depth. Whether an entry without values is there cannot be told, so two values are the
same exactly if they are equal without such entries (`Value.same_iff_pruned_eq`). In particular a
record is the same as the one without them (`Record.same_pruned`).
-/

import NestedColumns.Proofs.Record.Pruned

namespace NestedColumns

/-- Induction over values: what is shown of a record may be known of every value in it. -/
theorem Value.inductionOn {motive : Value → Prop} (value : Value)
    (scalar : ∀ content, motive (.scalar content))
    (record : ∀ content : Record,
      (∀ entry ∈ content.entries, ∀ value ∈ entry.2, motive value) → motive (.record content)) :
    motive value :=
  match value with
  | .scalar content => scalar content
  | .record ⟨_⟩ => record _ fun _ _ value _ => value.inductionOn scalar record
termination_by sizeOf value
decreasing_by
  rename_i entry member among
  obtain ⟨name, values⟩ := entry
  have within := List.sizeOf_lt_of_mem member
  have below : sizeOf value < sizeOf values := List.sizeOf_lt_of_mem among
  simp only [Prod.mk.sizeOf_spec] at within
  simp only [Value.record.sizeOf_spec, Record.mk.sizeOf_spec]
  omega

/-- Values that show the same. -/
inductive Value.Same : Value → Value → Prop
  | scalar (content : Scalar) : Same (.scalar content) (.scalar content)
  | record {a b : Record} (names : a.fields.map (·.1) = b.fields.map (·.1))
      (values : List.Forall₂ (List.Forall₂ Value.Same) (a.fields.map (·.2)) (b.fields.map (·.2))) :
      Same (.record a) (.record b)

/-- **Records that show the same fields**: the same names, with the same values, one by one. -/
def Record.Same (a b : Record) : Prop :=
  (Value.record a).Same (.record b)

/-! ### What is shown of a record -/

theorem Record.ext_entries {a b : Record} (same : a.entries = b.entries) : a = b := by
  cases a
  cases b
  exact congrArg Record.mk same

/-- The entries of a pruned record are the fields that hold values. -/
theorem Record.prunedEntries_eq : ∀ entries : List (String × List Value),
    prunedEntries entries = (Record.mk entries).fields.map fun entry =>
      (entry.1, entry.2.map Value.pruned)
  | [] => rfl
  | (name, []) :: rest => prunedEntries_eq rest
  | (name, value :: values) :: rest => by
    rw [prunedEntries, Value.prunedList_eq_map, prunedEntries_eq rest]
    rfl

theorem Record.entries_pruned_eq (record : Record) : record.pruned.entries =
    record.fields.map fun entry => (entry.1, entry.2.map Value.pruned) := by
  rw [Record.entries_pruned]
  exact prunedEntries_eq record.entries

theorem Record.fields_pruned (record : Record) : record.pruned.fields = record.pruned.entries := by
  refine List.filter_eq_self.mpr fun entry member => ?_
  simpa using record.inhabited_pruned entry member

theorem forall₂_iff_map_eq {α β : Type} {related : α → α → Prop} {view : α → β} :
    ∀ {first second : List α}, (∀ a ∈ first, ∀ b, related a b ↔ view a = view b) →
      (List.Forall₂ related first second ↔ first.map view = second.map view)
  | [], [], _ => by simp
  | [], b :: second, _ => by simp
  | a :: first, [], _ => by simp
  | a :: first, b :: second, agree => by
    rw [List.forall_mem_cons] at agree
    rw [List.forall₂_cons, List.map_cons, List.map_cons, List.cons.injEq, agree.1 b,
      forall₂_iff_map_eq agree.2]

/-- **Values show the same exactly if they are equal without empty entries.** -/
theorem Value.same_iff_pruned_eq (a b : Value) : a.Same b ↔ a.pruned = b.pruned := by
  induction a using Value.inductionOn generalizing b with
  | scalar content =>
    cases b with
    | scalar other =>
      rw [Value.pruned, Value.pruned, Value.scalar.injEq]
      exact ⟨fun same => by cases same; rfl, fun same => same ▸ .scalar content⟩
    | record other => exact iff_of_false (by rintro ⟨⟩) (by simp [Value.pruned])
  | record content each =>
    cases b with
    | scalar other => exact iff_of_false (by rintro ⟨⟩) (by simp [Value.pruned])
    | record other =>
      have values : List.Forall₂ (List.Forall₂ Value.Same) (content.fields.map (·.2))
          (other.fields.map (·.2)) ↔ (content.fields.map (·.2)).map (·.map Value.pruned) =
            (other.fields.map (·.2)).map (·.map Value.pruned) := by
        refine forall₂_iff_map_eq fun held listed others => forall₂_iff_map_eq fun value among b => ?_
        obtain ⟨entry, shown, rfl⟩ := List.mem_map.mp listed
        exact each entry (List.mem_of_mem_filter shown) value among b
      have names : ∀ record : Record,
          record.pruned.entries.map (·.1) = record.fields.map (·.1) := fun record => by
        rw [Record.entries_pruned_eq, List.map_map]
        rfl
      have held : ∀ record : Record, record.pruned.entries.map (·.2) =
          (record.fields.map (·.2)).map (·.map Value.pruned) := fun record => by
        rw [Record.entries_pruned_eq, List.map_map, List.map_map]
        rfl
      rw [← held, ← held] at values
      rw [Value.pruned, Value.pruned, Value.record.injEq]
      constructor
      · rintro (_ | ⟨sameNames, sameValues⟩)
        rw [← names, ← names] at sameNames
        have entries := (List.zip_of_prod sameNames (values.mp sameValues)).trans
          (List.zip_of_prod rfl rfl).symm
        exact Record.ext_entries entries
      · intro same
        refine .record ?_ (values.mpr (same ▸ rfl))
        rw [← names, ← names, same]

theorem Value.Same.symm {a b : Value} (same : a.Same b) : b.Same a :=
  (same_iff_pruned_eq b a).mpr ((same_iff_pruned_eq a b).mp same).symm

/-- A pruned value has no empty entries to be pruned again. -/
theorem Value.pruned_pruned (value : Value) : value.pruned.pruned = value.pruned := by
  induction value using Value.inductionOn with
  | scalar content => rw [Value.pruned, Value.pruned]
  | record content each =>
    rw [Value.pruned, Value.pruned, Value.record.injEq]
    have entries : content.pruned.pruned.entries = content.pruned.entries := by
      rw [Record.entries_pruned_eq content.pruned, Record.fields_pruned, Record.entries_pruned_eq,
        List.map_map]
      refine List.map_congr_left fun entry shown => ?_
      rw [Function.comp_apply, List.map_map]
      refine congrArg (entry.1, ·) (List.map_congr_left fun value among => ?_)
      exact each entry (List.mem_of_mem_filter shown) value among
    exact Record.ext_entries entries

/-- **A record shows the same without its empty entries.** -/
theorem Record.same_pruned (record : Record) : record.pruned.Same record :=
  (Value.same_iff_pruned_eq _ _).mpr (Value.pruned_pruned (.record record))

end NestedColumns
