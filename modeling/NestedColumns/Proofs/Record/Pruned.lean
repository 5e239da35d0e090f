/-
Records up to empty lists of values.

* `Record.pruned` is a record without the entries that hold no value, at every depth.
* `Record.IsOrdered` says that the entries of a record stand in order at every depth, which every
  record keeps that is made from the empty one by changes (`Sorted.change`).
* `Record.ext_getAll` — records in order and without empty entries are equal if they have the same
  values under each name.
-/

import Mathlib.Data.List.Sort
import NestedColumns.Proofs.Record.Focus
import NestedColumns.Sample.Document

namespace NestedColumns

mutual

/-- A value without empty entries. -/
def Value.pruned : Value → Value
  | .scalar content => .scalar content
  | .record content => .record content.pruned
termination_by structural value => value

/-- A record without empty entries, at every depth. -/
def Record.pruned : Record → Record
  | ⟨entries⟩ => ⟨Record.prunedEntries entries⟩
termination_by structural record => record

def Record.prunedEntries : List (String × List Value) → List (String × List Value)
  | [] => []
  | (_, []) :: rest => Record.prunedEntries rest
  | (name, value :: values) :: rest =>
    (name, value.pruned :: Value.prunedList values) :: Record.prunedEntries rest
termination_by structural entries => entries

def Value.prunedList : List Value → List Value
  | [] => []
  | value :: values => value.pruned :: Value.prunedList values
termination_by structural values => values

end

theorem Value.prunedList_eq_map : ∀ values : List Value, prunedList values = values.map Value.pruned
  | [] => rfl
  | value :: values => by rw [prunedList, prunedList_eq_map values, List.map_cons]

/-- The entries of every record at or below a value stand in order. -/
inductive Value.IsOrdered : Value → Prop
  | scalar (content : Scalar) : IsOrdered (.scalar content)
  | record {content : Record} (sorted : content.Sorted)
      (each : ∀ entry ∈ content.entries, ∀ value ∈ entry.2, value.IsOrdered) :
      IsOrdered (.record content)

namespace Record

/-- The entries of a record stand in order, at every depth. -/
def IsOrdered (record : Record) : Prop :=
  (Value.record record).IsOrdered

/-- Every entry holds a value. -/
def Inhabited (record : Record) : Prop :=
  ∀ entry ∈ record.entries, entry.2 ≠ []

/-! ### Pruned entries -/

theorem mem_prunedEntries : ∀ {entries : List (String × List Value)} {entry : String × List Value},
    entry ∈ prunedEntries entries →
      entry.2 ≠ [] ∧ ∃ values, (entry.1, values) ∈ entries
  | (name, []) :: rest, entry, member => by
    rw [prunedEntries] at member
    obtain ⟨some, values, among⟩ := mem_prunedEntries member
    exact ⟨some, values, List.mem_cons_of_mem _ among⟩
  | (name, value :: values) :: rest, entry, member => by
    rw [prunedEntries] at member
    rcases List.mem_cons.mp member with rfl | later
    · exact ⟨List.cons_ne_nil _ _, _, List.mem_cons_self⟩
    · obtain ⟨some, values', among⟩ := mem_prunedEntries later
      exact ⟨some, values', List.mem_cons_of_mem _ among⟩

theorem isOrdered_prunedEntries : ∀ {entries : List (String × List Value)},
    Entries.IsOrdered entries → Entries.IsOrdered (prunedEntries entries)
  | [], _ => List.Pairwise.nil
  | (name, []) :: rest, ordered => by
    rw [prunedEntries]
    exact isOrdered_prunedEntries (List.pairwise_cons.mp ordered).2
  | (name, value :: values) :: rest, ordered => by
    obtain ⟨above, restOrdered⟩ := List.pairwise_cons.mp ordered
    rw [prunedEntries]
    refine List.pairwise_cons.mpr ⟨fun entry member => ?_, isOrdered_prunedEntries restOrdered⟩
    obtain ⟨_, values', among⟩ := mem_prunedEntries member
    exact above (entry.1, values') among

theorem lookup_prunedEntries (name : String) : ∀ {entries : List (String × List Value)},
    Entries.IsOrdered entries →
      ((prunedEntries entries).lookup name).getD [] =
        ((entries.lookup name).getD []).map Value.pruned
  | [], _ => rfl
  | (key, values) :: rest, ordered => by
    obtain ⟨above, restOrdered⟩ := List.pairwise_cons.mp ordered
    have ih := lookup_prunedEntries name restOrdered
    by_cases here : name = key
    · subst here
      cases values with
      | nil =>
        have absent : rest.lookup name = none := Entries.lookup_eq_none_of_forall_lt above
        rw [prunedEntries, ih, absent, List.lookup_cons_self]
        rfl
      | cons value values =>
        rw [prunedEntries, List.lookup_cons_self, List.lookup_cons_self, Value.prunedList_eq_map]
        rfl
    · have skipped : (name == key) = false := by simpa using here
      cases values with
      | nil =>
        rw [prunedEntries, ih, List.lookup_cons, skipped]
      | cons value values =>
        rw [prunedEntries, List.lookup_cons, skipped, List.lookup_cons, skipped]
        exact ih

theorem entries_pruned (record : Record) : record.pruned.entries = prunedEntries record.entries := by
  cases record
  rfl

theorem Sorted.pruned {record : Record} (sorted : record.Sorted) : record.pruned.Sorted := by
  unfold Sorted
  rw [entries_pruned]
  exact isOrdered_prunedEntries sorted

theorem inhabited_pruned (record : Record) : record.pruned.Inhabited := by
  intro entry member
  rw [entries_pruned] at member
  exact (mem_prunedEntries member).1

theorem getAll_pruned {record : Record} (sorted : record.Sorted) (name : String) :
    record.pruned.getAll name = (record.getAll name).map Value.pruned := by
  unfold getAll
  rw [entries_pruned]
  exact lookup_prunedEntries name sorted

/-! ### Equality from look-up -/

/-- An entry of a record in order is what is looked up under its name. -/
theorem Sorted.lookup_eq {record : Record} (sorted : record.Sorted) {entry : String × List Value}
    (member : entry ∈ record.entries) : record.entries.lookup entry.1 = some entry.2 := by
  obtain ⟨before, after, parts⟩ := List.append_of_mem member
  rw [List.lookup_eq_some_iff]
  refine ⟨before, after, parts, fun other among => ?_⟩
  unfold Sorted Entries.IsOrdered at sorted
  rw [parts, List.pairwise_append] at sorted
  simpa using Ne.symm (String.ne_of_lt (sorted.2.2 other among entry List.mem_cons_self))

/-- A name with values has an entry. -/
theorem mem_entries_of_getAll {record : Record} {name : String} (some : record.getAll name ≠ []) :
    (name, record.getAll name) ∈ record.entries := by
  unfold getAll at some ⊢
  cases found : record.entries.lookup name with
  | none =>
    rw [found] at some
    exact absurd rfl some
  | some values =>
    obtain ⟨before, after, parts, _⟩ := List.lookup_eq_some_iff.mp found
    rw [parts]
    exact List.mem_append_right _ List.mem_cons_self

theorem IsOrdered.sorted {record : Record} (ordered : record.IsOrdered) : record.Sorted := by
  cases ordered with
  | record sorted _ => exact sorted

theorem IsOrdered.of_mem_getAll {record : Record} (ordered : record.IsOrdered) {name : String}
    {value : Value} (among : value ∈ record.getAll name) : value.IsOrdered := by
  cases ordered with
  | record _ each =>
    exact each _ (mem_entries_of_getAll (List.ne_nil_of_mem among)) value among

theorem Sorted.mem_entries_iff {record : Record} (sorted : record.Sorted) (inhabited : record.Inhabited)
    {entry : String × List Value} :
    entry ∈ record.entries ↔ entry.2 ≠ [] ∧ record.getAll entry.1 = entry.2 := by
  constructor
  · intro member
    refine ⟨inhabited entry member, ?_⟩
    rw [getAll, sorted.lookup_eq member]
    rfl
  · rintro ⟨some, found⟩
    rw [← found] at some
    have member := mem_entries_of_getAll some
    rw [found] at member
    exact member

/-! ### Appending -/

theorem getAll_append_self {record : Record} (sorted : record.Sorted) (name : String)
    (values : List Value) :
    (record.append name values).getAll name = record.getAll name ++ values := by
  unfold append
  by_cases none : values.isEmpty = true
  · rw [if_pos none, List.isEmpty_iff.mp none, List.append_nil]
  · rw [if_neg none, getAll_change_self sorted]

theorem getAll_append_of_ne {record : Record} {name other : String} (differs : other ≠ name)
    (values : List Value) : (record.append name values).getAll other = record.getAll other := by
  unfold append
  by_cases none : values.isEmpty = true
  · rw [if_pos none]
  · rw [if_neg none, getAll_change_of_ne differs]

/-- An entry of another name is not touched. -/
theorem mem_entries_of_mem_append {record : Record} {name : String} {values : List Value}
    {entry : String × List Value} (differs : entry.1 ≠ name)
    (member : entry ∈ (record.append name values).entries) : entry ∈ record.entries := by
  by_cases none : values.isEmpty = true
  · unfold append at member
    rw [if_pos none] at member
    exact member
  · unfold append at member
    rw [if_neg none] at member
    rcases Entries.mem_change member with same | before
    · exact absurd same differs
    · exact before

/-- The entry of the appended name holds what it held and the new values. -/
theorem eq_of_mem_append {record : Record} (sorted : record.Sorted) {values : List Value}
    {entry : String × List Value} (member : entry ∈ (record.append entry.1 values).entries) :
    entry.2 = record.getAll entry.1 ++ values := by
  have found := (sorted.append : (record.append entry.1 values).Sorted).lookup_eq member
  rw [← getAll_append_self sorted, getAll, found]
  rfl

theorem Inhabited.append {record : Record} (sorted : record.Sorted) (inhabited : record.Inhabited)
    (name : String) (values : List Value) : (record.append name values).Inhabited := by
  intro entry member
  by_cases none : values = []
  · unfold Record.append at member
    rw [if_pos (List.isEmpty_iff.mpr none)] at member
    exact inhabited entry member
  by_cases named : entry.1 = name
  · subst named
    rw [eq_of_mem_append sorted member]
    exact List.append_ne_nil_of_right_ne_nil _ none
  · exact inhabited entry (mem_entries_of_mem_append named member)

theorem isOrdered_empty : Record.empty.IsOrdered :=
  .record sorted_empty (by simp [Record.empty])

/-- Appending values in order keeps a record in order at every depth. -/
theorem IsOrdered.append {record : Record} (ordered : record.IsOrdered) (name : String)
    {values : List Value} (each : ∀ value ∈ values, value.IsOrdered) :
    (record.append name values).IsOrdered := by
  cases ordered with
  | record sorted below =>
    refine .record sorted.append fun entry member value among => ?_
    by_cases named : entry.1 = name
    · subst named
      rw [eq_of_mem_append sorted member] at among
      rcases List.mem_append.mp among with before | new
      · exact below _ (mem_entries_of_getAll (List.ne_nil_of_mem before)) value before
      · exact each value new
    · exact below entry (mem_entries_of_mem_append named member) value among

/-- **Records in order and without empty entries are determined by their values.** -/
theorem ext_getAll {first second : Record} (sorted : first.Sorted) (sorted' : second.Sorted)
    (inhabited : first.Inhabited) (inhabited' : second.Inhabited)
    (same : ∀ name, first.getAll name = second.getAll name) : first = second := by
  let before (a b : String × List Value) : Prop := a.1 < b.1
  have irreflexive : Std.Irrefl before := ⟨fun _ less => String.lt_irrefl _ less⟩
  have antisymmetric : Std.Antisymm before :=
    ⟨fun _ _ less more => absurd (String.lt_trans less more) (String.lt_irrefl _)⟩
  have entries : first.entries = second.entries := by
    refine List.Pairwise.eq_of_mem_iff (sorted : first.entries.Pairwise before) sorted' ?_
    intro entry
    rw [sorted.mem_entries_iff inhabited, sorted'.mem_entries_iff inhabited', same]
  cases first
  cases second
  exact congrArg Record.mk entries

end Record

/-! ### The sample records -/

theorem Sample.isOrdered_group {fields : List (String × List Value)}
    (each : ∀ field ∈ fields, ∀ value ∈ field.2, value.IsOrdered) : (group fields).IsOrdered := by
  have made : ∀ {record : Record}, record.IsOrdered →
      (fields.foldl (fun made field => made.append field.1 field.2) record).IsOrdered := by
    induction fields with
    | nil => exact fun ordered => ordered
    | cons field fields ih =>
      rw [List.forall_mem_cons] at each
      exact fun ordered => ih each.2 (ordered.append field.1 each.1)
  exact made Record.isOrdered_empty

theorem Sample.isOrdered_largeDocument : largeDocument.IsOrdered := by
  refine Sample.isOrdered_group ?_
  simp [isOrdered_group, int, text, Value.IsOrdered.scalar]

end NestedColumns
