/-
Changing a record at a place.

* `Record.change_change` — two changes of one field are one change.
* `Record.instanceAt_append`, `Record.changeAt_append` — places are followed step by step.
* `Record.Focus place context` — the records of the form `context inner` have `inner` at the place,
  and a change there changes only `inner`. Every value pushed to the inner record opens a place below
  it (`Focus.enter`).
-/

import NestedColumns.Record.Basic

namespace NestedColumns

namespace Entries

variable {α : Type} {name : String}

theorem change_change (first second : Option α → α) (entries : Entries α) :
    change name second (change name first entries) =
      change name (fun thing => second (some (first thing))) entries := by
  induction entries with
  | nil => simp [change]
  | cons entry rest ih =>
    by_cases same : name = entry.1
    · simp [change, same]
    · by_cases before : name < entry.1
      · simp [change, same, before]
      · simp [change, same, before, ih]

/-- A change depends only on what it does to the thing of that name. -/
theorem change_congr {first second : Option α → α} {entries : Entries α}
    (ordered : entries.IsOrdered) (same : first (entries.lookup name) = second (entries.lookup name)) :
    change name first entries = change name second entries := by
  induction entries with
  | nil =>
    rw [List.lookup_nil] at same
    simp [change, same]
  | cons entry rest ih =>
    obtain ⟨above, restOrdered⟩ := List.pairwise_cons.mp ordered
    obtain ⟨key, thing⟩ := entry
    by_cases here : name = key
    · subst here
      rw [List.lookup_cons_self] at same
      simp [change, same]
    · by_cases before : name < key
      · have absent : List.lookup name ((key, thing) :: rest) = none := by
          apply lookup_eq_none_of_forall_lt
          intro entry member
          rcases List.mem_cons.mp member with rfl | later
          · exact before
          · exact String.lt_trans before (above entry later)
        rw [absent] at same
        simp [change, here, before, same]
      · have skipped : (name == key) = false := by simpa using here
        rw [List.lookup_cons, skipped] at same
        simp [change, here, before, ih restOrdered same]

end Entries

namespace Record

variable {name : String} {record : Record}

/-- The entries of a record stand in order. -/
def Sorted (record : Record) : Prop :=
  Entries.IsOrdered record.entries

theorem sorted_empty : Record.empty.Sorted :=
  List.Pairwise.nil

theorem Sorted.change {update : List Value → List Value} (sorted : record.Sorted) :
    (record.change name update).Sorted :=
  Entries.isOrdered_change sorted

theorem Sorted.append {values : List Value} (sorted : record.Sorted) :
    (record.append name values).Sorted := by
  unfold Record.append
  by_cases none : values.isEmpty = true
  · rw [if_pos none]
    exact sorted
  · rw [if_neg none]
    exact sorted.change

theorem change_change (first second : List Value → List Value) :
    (record.change name first).change name second =
      record.change name fun values => second (first values) := by
  unfold Record.change
  rw [Entries.change_change]
  rfl

theorem change_congr {first second : List Value → List Value} (sorted : record.Sorted)
    (same : first (record.getAll name) = second (record.getAll name)) :
    record.change name first = record.change name second :=
  congrArg Record.mk (Entries.change_congr sorted same)

/-- Values may be appended one after the other. -/
theorem append_push (value : Value) (values : List Value) :
    (record.push name value).append name values = record.append name (value :: values) := by
  cases values with
  | nil => rfl
  | cons next values =>
    unfold append push
    rw [if_neg (by simp), if_neg (by simp), change_change]
    simp

/-! ### Places -/

theorem instanceAt_append (place more : Place) (record : Record) :
    instanceAt (place ++ more) record = instanceAt place record >>= instanceAt more := by
  induction place generalizing record with
  | nil => rfl
  | cons step place ih =>
    obtain ⟨step, index⟩ := step
    rw [List.cons_append, instanceAt, instanceAt]
    cases found : (record.getAll step)[index]? with
    | none => rfl
    | some value =>
      cases value with
      | scalar content => rfl
      | record inner => exact ih inner

theorem changeAt_append (update : Record → Record) (place more : Place) (record : Record) :
    changeAt (place ++ more) update record = changeAt place (changeAt more update) record := by
  induction place generalizing record with
  | nil => rfl
  | cons step place ih =>
    obtain ⟨step, index⟩ := step
    rw [List.cons_append, changeAt, changeAt]
    refine congrArg (record.change step) ?_
    funext values
    refine congrArg (values.modify index) ?_
    funext value
    cases value with
    | scalar content => rfl
    | record inner => exact congrArg Value.record (ih inner)

theorem modify_length_append (update : Value → Value) (last : Value) (values : List Value) :
    (values ++ [last]).modify values.length update = values ++ [update last] := by
  induction values with
  | nil => rfl
  | cons value values ih => simp [ih]

/-- `place` leads to the inner record of every record of the form `context inner`. -/
structure Focus (place : Place) (context : Record → Record) : Prop where
  instanceAt_eq : ∀ inner, instanceAt place (context inner) = .ok inner
  changeAt_eq : ∀ update inner, changeAt place update (context inner) = context (update inner)

theorem Focus.root : Focus [] id :=
  ⟨fun _ => rfl, fun _ _ => rfl⟩

variable {place : Place} {context : Record → Record}

theorem Focus.pushAt (focus : Focus place context) (inner : Record) (value : Value) :
    Record.pushAt place name value (context inner) =
      .ok (context (inner.push name value), (inner.getAll name).length) := by
  unfold Record.pushAt
  rw [focus.instanceAt_eq, focus.changeAt_eq]
  rfl

/-- A record that is pushed to the inner record is in focus one step further down. -/
theorem Focus.enter (focus : Focus place context) {outer : Record} (sorted : outer.Sorted)
    (name : String) : Focus (place ++ [(name, (outer.getAll name).length)])
      fun inner => context (outer.push name (.record inner)) where
  instanceAt_eq := by
    intro inner
    have last : ((outer.push name (.record inner)).getAll name)[(outer.getAll name).length]? =
        some (.record inner) := by
      unfold push
      rw [getAll_change_self sorted]
      simp
    rw [instanceAt_append, focus.instanceAt_eq]
    show instanceAt [(name, (outer.getAll name).length)] (outer.push name (.record inner)) = .ok inner
    rw [instanceAt, last]
    rfl
  changeAt_eq := by
    intro update inner
    rw [changeAt_append, focus.changeAt_eq]
    refine congrArg context ?_
    rw [changeAt, push, change_change]
    refine change_congr sorted ?_
    rw [modify_length_append]
    rfl

end Record

end NestedColumns
