/-
Lists of named things in ascending order of their names, each name at most once.

Names are compared by code points. Look-up is `List.lookup`; every change of an entry goes through
`Entries.change`, which puts a new name at its place. It keeps the order of the names
(`isOrdered_change`), what is looked up under the changed name is the changed thing
(`lookup_change_self`), and under any other name what was there before (`lookup_change_of_ne`).
-/

namespace NestedColumns

/-- Named things. -/
abbrev Entries (α : Type) := List (String × α)

namespace Entries

variable {α : Type}

/-- The entries with the one of the given name changed, or made from nothing. -/
def change (name : String) (update : Option α → α) : Entries α → Entries α
  | [] => [(name, update none)]
  | entry :: rest =>
    if name = entry.1 then (name, update (some entry.2)) :: rest
    else if name < entry.1 then (name, update none) :: entry :: rest
    else entry :: change name update rest

/-- The entries with one of them set. -/
def put (name : String) (value : α) (entries : Entries α) : Entries α :=
  change name (fun _ => value) entries

/-- The entries without the one of the given name. -/
def remove (name : String) (entries : Entries α) : Entries α :=
  entries.filter fun entry => entry.1 != name

/-! ### Order and look-up -/

/-- The names stand in ascending order, so each occurs at most once. -/
def IsOrdered (entries : Entries α) : Prop :=
  entries.Pairwise fun a b => a.1 < b.1

/-- A name that lies before all others is not there. -/
theorem lookup_eq_none_of_forall_lt {name : String} {entries : Entries α}
    (above : ∀ entry ∈ entries, name < entry.1) : entries.lookup name = none := by
  rw [List.lookup_eq_none_iff]
  intro entry member
  simpa using (String.ne_of_lt (above entry member))

/-- A changed list has no new entries but the one of the changed name. -/
theorem mem_change {name : String} {update : Option α → α} {entries : Entries α}
    {entry : String × α} (member : entry ∈ change name update entries) :
    entry.1 = name ∨ entry ∈ entries := by
  induction entries with
  | nil => simp_all [change]
  | cons first rest ih => grind [change]

/-- A list in which one entry is set has no other new entries. -/
theorem mem_put {name : String} {value : α} {entries : Entries α} {entry : String × α}
    (member : entry ∈ put name value entries) : entry = (name, value) ∨ entry ∈ entries := by
  unfold put at member
  induction entries with
  | nil => exact .inl (List.mem_singleton.mp member)
  | cons first rest ih =>
    rw [change] at member
    split at member
    · exact (List.mem_cons.mp member).imp_right (List.mem_cons_of_mem _)
    · split at member
      · exact List.mem_cons.mp member
      · rcases List.mem_cons.mp member with rfl | later
        · exact .inr List.mem_cons_self
        · exact (ih later).imp_right (List.mem_cons_of_mem _)

theorem isOrdered_change {name : String} {update : Option α → α} {entries : Entries α}
    (ordered : entries.IsOrdered) : (change name update entries).IsOrdered := by
  induction entries with
  | nil => simp [change, IsOrdered]
  | cons first rest ih =>
    obtain ⟨above, restOrdered⟩ := List.pairwise_cons.mp ordered
    by_cases same : name = first.1
    · rw [change, if_pos same]
      exact List.pairwise_cons.mpr ⟨by simpa [same] using above, restOrdered⟩
    rw [change, if_neg same]
    by_cases before : name < first.1
    · rw [if_pos before]
      refine List.pairwise_cons.mpr ⟨fun entry member => ?_, ordered⟩
      rcases List.mem_cons.mp member with rfl | later
      · exact before
      · exact String.lt_trans before (above entry later)
    · rw [if_neg before]
      refine List.pairwise_cons.mpr ⟨fun entry member => ?_, ih restOrdered⟩
      rcases mem_change member with named | later
      · rw [named]
        exact Std.lt_of_le_of_ne (String.not_lt.mp before) (Ne.symm same)
      · exact above entry later

theorem lookup_change_self {name : String} {update : Option α → α} {entries : Entries α}
    (ordered : entries.IsOrdered) :
    (change name update entries).lookup name = some (update (entries.lookup name)) := by
  induction entries with
  | nil => simp [change]
  | cons first rest ih =>
    obtain ⟨above, restOrdered⟩ := List.pairwise_cons.mp ordered
    obtain ⟨key, thing⟩ := first
    by_cases same : name = key
    · subst same
      simp [change]
    rw [change, if_neg same]
    by_cases before : name < key
    · have absent : List.lookup name ((key, thing) :: rest) = none :=
        lookup_eq_none_of_forall_lt fun entry member => by
          rcases List.mem_cons.mp member with rfl | later
          · exact before
          · exact String.lt_trans before (above entry later)
      rw [if_pos before, absent, List.lookup_cons_self]
    · have skipped : (name == key) = false := by simpa using same
      rw [if_neg before, List.lookup_cons, skipped, List.lookup_cons, skipped]
      exact ih restOrdered

theorem lookup_change_of_ne {name other : String} {update : Option α → α} {entries : Entries α}
    (differs : other ≠ name) :
    (change name update entries).lookup other = entries.lookup other := by
  have skipped : (other == name) = false := by simpa using differs
  induction entries with
  | nil => simp [change, List.lookup_cons, skipped]
  | cons first rest ih =>
    obtain ⟨key, thing⟩ := first
    by_cases same : name = key
    · subst same
      simp [change, List.lookup_cons, skipped]
    rw [change, if_neg same]
    by_cases before : name < key
    · rw [if_pos before, List.lookup_cons, skipped]
    · rw [if_neg before, List.lookup_cons, List.lookup_cons, ih]

end Entries

end NestedColumns
