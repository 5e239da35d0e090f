/-
Open instances.

`Record.Leads place record` — the place leads from instance to instance of the record. It goes on
doing so whatever is pushed at its end, and so does every place above it (`Leads.take`), whichever
field the steps are named for.

So a row can always be added where some of the open instances stay open (`exists_settle`): the
instances are there, and a row with a value opens all groups around its leaf.
-/

import NestedColumns.Proofs.Assembly.Feed
import NestedColumns.Proofs.Striping.Stripe

namespace NestedColumns

namespace Record

/-- **A place that leads to an instance.** The records on the way have their entries in order. -/
inductive Leads : Place → Record → Prop
  | here {record : Record} (sorted : record.Sorted) : Leads [] record
  | inside {name : String} {index : Nat} {rest : Place} {outer inner : Record}
      (sorted : outer.Sorted) (found : (outer.getAll name)[index]? = some (.record inner))
      (below : Leads rest inner) : Leads ((name, index) :: rest) outer

variable {place : Place} {record : Record}

theorem leads_empty : Leads [] Record.empty :=
  .here sorted_empty

/-- Every place above leads to an instance, too. -/
theorem Leads.take (leads : Leads place record) (kept : Nat) : Leads (place.take kept) record := by
  induction leads generalizing kept with
  | here sorted =>
    rw [List.take_nil]
    exact .here sorted
  | inside sorted found _ ih =>
    cases kept with
    | zero => exact .here sorted
    | succ kept => exact .inside sorted found (ih kept)

/-- **A value can be pushed to the instance that a place leads to**, and the place still leads there;
a record that is pushed can be entered. -/
theorem Leads.pushAt (leads : Leads place record) (name : String) (value : Value) :
    ∃ longer index, record.pushAt place name value = .ok (longer, index) ∧ Leads place longer ∧
      ∀ inner, value = .record inner → inner.Sorted → Leads (place ++ [(name, index)]) longer := by
  induction leads with
  | @here record sorted =>
    refine ⟨_, _, rfl, .here sorted.change, ?_⟩
    rintro inner rfl sortedInner
    refine .inside sorted.change ?_ (.here sortedInner)
    show ((record.change name _).getAll name)[(record.getAll name).length]? = _
    rw [getAll_change_self sorted]
    exact List.getElem?_concat_length
  | @inside step index rest outer inner sorted found below ih =>
    obtain ⟨longer, position, pushed, leads, enters⟩ := ih
    -- the push is made in the inner record, and seen from the outer one it changes one value
    obtain ⟨innermost, reached, same⟩ := bind_eq_ok.mp pushed
    obtain ⟨rfl, rfl⟩ := Prod.mk.inj (Except.ok.inj same)
    have there : instanceAt ((step, index) :: rest) outer = .ok innermost := by
      rw [instanceAt, found]
      exact reached
    have found' : ((changeAt ((step, index) :: rest) (·.push name value) outer).getAll step)[index]? =
        some (.record (changeAt rest (·.push name value) inner)) := by
      rw [changeAt, getAll_change_self sorted, List.getElem?_modify_eq, found]
      rfl
    refine ⟨_, _, bind_eq_ok.mpr ⟨_, there, rfl⟩, .inside sorted.change found' leads, ?_⟩
    exact fun new same sortedNew => .inside sorted.change found' (enters new same sortedNew)

end Record

namespace Assembly

open Record (Leads)

variable {place : Record.Place} {record : Record}

theorem exists_pushInto (leads : Leads place record) (name : String) (value : Value) :
    ∃ longer index, pushInto place name value record = .ok (longer, index) ∧ Leads place longer ∧
      ∀ inner, value = .record inner → inner.Sorted → Leads (place ++ [(name, index)]) longer := by
  obtain ⟨longer, index, pushed, rest⟩ := leads.pushAt name value
  exact ⟨longer, index, by rw [pushInto, pushed]; rfl, rest⟩

/-- Groups are opened as far as the definition level reaches, and all of them if it reaches that
far. -/
theorem exists_openGroups (definition : Level) (groups : Path) (defined : Level)
    (leads : Leads place record) :
    ∃ opened, openGroups definition groups defined place record = .ok opened ∧
      Leads opened.1 opened.2 ∧
      (defined + Path.definitionLevel groups ≤ definition →
        opened.1.length = place.length + groups.length) := by
  induction groups generalizing defined place record with
  | nil => exact ⟨_, rfl, leads, fun _ => rfl⟩
  | cons group groups ih =>
    obtain ⟨reached, reachedEq⟩ : ∃ reached,
        reached = if group.cardinality.mayBeAbsent then defined + 1 else defined := ⟨_, rfl⟩
    have total : defined + Path.definitionLevel (group :: groups) =
        reached + Path.definitionLevel groups := by
      rw [reachedEq, Path.definitionLevel, List.countP_cons, Path.definitionLevel]
      by_cases absent : group.cardinality.mayBeAbsent = true
      · rw [if_pos absent, if_pos absent]
        lia
      · rw [if_neg absent, if_neg absent]
        lia
    rw [openGroups, ← reachedEq, total]
    by_cases stops : definition < reached
    · rw [if_pos stops]
      exact ⟨_, rfl, leads, fun within => absurd stops (by lia)⟩
    · rw [if_neg stops]
      obtain ⟨longer, index, pushed, _, enters⟩ :=
        exists_pushInto leads group.name (.record .empty)
      obtain ⟨opened, opens, leads, all⟩ :=
        ih reached (enters _ rfl Record.sorted_empty)
      refine ⟨opened, bind_eq_ok.mpr ⟨_, pushed, opens⟩, leads, fun within => ?_⟩
      rw [all within, List.length_append, List.length_singleton, List.length_cons]
      omega

/-- **A row that fits its leaf can be added** inside open instances of groups around the leaf. -/
theorem exists_settle {visit : Visit} (leads : Leads place record)
    (within : place.length ≤ (groupsOf visit.1).length) (fits : visit.2.Fits visit.1) :
    ∃ opened, settle place record visit = .ok opened ∧ Leads opened.1 opened.2 := by
  obtain ⟨opened, opens, leads, all⟩ := exists_openGroups visit.2.definition
    ((groupsOf visit.1).drop place.length)
    (Path.definitionLevel ((groupsOf visit.1).take place.length)) leads
  rw [← Path.definitionLevel_append, List.take_append_drop, List.length_drop,
    Nat.add_sub_cancel' within] at all
  suffices adds : ∃ added, addValue visit opened = .ok added ∧ Leads added.1 added.2 by
    obtain ⟨added, adds, leads⟩ := adds
    exact ⟨added, bind_eq_ok.mpr ⟨opened, opens, adds⟩, leads⟩
  unfold addValue
  cases content : visit.2.value with
  | none => exact ⟨opened, rfl, leads⟩
  | some value =>
    -- a row with a value is defined all the way down, so all groups around the leaf are open
    have defined : visit.2.definition = visit.1.maxDefinition := by
      rcases fits.value with ⟨absent, _⟩ | ⟨_, _, _, same⟩
      · rw [absent] at content
        cases content
      · exact same
    have full : opened.1.length = (groupsOf visit.1).length := by
      refine all ?_
      rw [defined]
      exact Path.definitionLevel_le_of_isPrefix (List.dropLast_prefix _)
    obtain ⟨longer, index, pushed, leads, _⟩ := exists_pushInto leads visit.1.name value
    refine ⟨(opened.1, longer), ?_, leads⟩
    dsimp only
    rw [if_pos full, pushed]
    rfl

end Assembly

end NestedColumns
