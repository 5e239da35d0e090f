/-
Equality of records and the entries that hold no value.

* `Value.EachScalar` — something holds of every scalar in a value, at every depth.
* `Scalar.isEqual_self` — a scalar is equal to itself unless it is NaN.
* `Value.isEqual_of_same` — values that show the same are equal, unless they hold NaN. So entries
  without values do not count (`Record.isEqual_pruned`).
-/

import NestedColumns.Proofs.Record.Same
import NestedColumns.Proofs.Sequence
import NestedColumns.Record.Equality

namespace NestedColumns

theorem Binary64.isNaN_eq_false {x : Binary64} (finite : x.isFinite = true) : x.isNaN = false := by
  unfold isFinite at finite
  unfold isNaN
  simp only [decide_eq_true_eq] at finite
  simp only [decide_eq_false_iff_not]
  omega

namespace Scalar

/-- A floating-point number is finite; nothing is asked of other scalars. -/
def IsFinite : Scalar → Prop
  | .float64 value => value.isFinite = true
  | _ => True

/-- A floating-point number is not NaN; nothing is asked of other scalars. -/
def IsNotNaN : Scalar → Prop
  | .float64 value => value.isNaN = false
  | _ => True

theorem IsFinite.isNotNaN {content : Scalar} (finite : content.IsFinite) : content.IsNotNaN := by
  cases content with
  | float64 value => exact Binary64.isNaN_eq_false finite
  | _ => trivial

theorem isEqual_self {content : Scalar} (notNaN : content.IsNotNaN) :
    content.isEqual content = true := by
  cases content with
  | float64 value =>
    have number : value.isNaN = false := notNaN
    rw [isEqual, Binary64.isEqual, number]
    simp
  | _ => simp [isEqual]

end Scalar

/-- Something holds of every scalar at or below a value. -/
inductive Value.EachScalar (holds : Scalar → Prop) : Value → Prop
  | scalar {content : Scalar} (here : holds content) : EachScalar holds (.scalar content)
  | record {content : Record}
      (each : ∀ entry ∈ content.entries, ∀ value ∈ entry.2, value.EachScalar holds) :
      EachScalar holds (.record content)

theorem Record.eachScalar_of_mem_getAll {holds : Scalar → Prop} {record : Record}
    (each : (Value.record record).EachScalar holds) {name : String} {value : Value}
    (among : value ∈ record.getAll name) : value.EachScalar holds := by
  cases each with
  | record each =>
    exact each _ (Record.mem_entries_of_getAll (List.ne_nil_of_mem among)) value among

theorem Value.EachScalar.mono {holds holds' : Scalar → Prop} {value : Value}
    (weaker : ∀ content, holds content → holds' content) (each : value.EachScalar holds) :
    value.EachScalar holds' := by
  induction each with
  | scalar here => exact .scalar (weaker _ here)
  | record _ ih => exact .record ih

/-! ### Equality from equal fields -/

theorem Value.listsEqual_of_forall₂ {values others : List Value}
    (equal : List.Forall₂ (fun a b => a.isEqual b = true) values others) :
    listsEqual values others = true := by
  induction equal with
  | nil => rfl
  | cons here _ ih => rw [listsEqual, here, ih, Bool.and_self]

theorem Record.entriesEqual_of_forall₂ : ∀ {entries others : List (String × List Value)},
    (Record.mk entries).fields.map (·.1) = others.map (·.1) →
    List.Forall₂ (List.Forall₂ fun a b => a.isEqual b = true)
      ((Record.mk entries).fields.map (·.2)) (others.map (·.2)) →
    entriesEqual entries others = true
  | [], [], _, _ => rfl
  | (name, []) :: rest, others, names, values => by
    rw [entriesEqual]
    exact entriesEqual_of_forall₂ names values
  | (name, value :: values) :: rest, (name', values') :: others, names, equal => by
    obtain ⟨rfl, laterNames⟩ := List.cons_eq_cons.mp names
    obtain ⟨here, later⟩ := List.forall₂_cons.mp equal
    rw [entriesEqual, beq_self_eq_true, Value.listsEqual_of_forall₂ here,
      entriesEqual_of_forall₂ laterNames later]
    rfl

/-- Records are equal if they have the same names and, one by one, equal values. -/
theorem Record.isEqual_of_forall₂ {a b : Record} (names : a.fields.map (·.1) = b.fields.map (·.1))
    (equal : List.Forall₂ (List.Forall₂ fun a b => a.isEqual b = true)
      (a.fields.map (·.2)) (b.fields.map (·.2))) : a.isEqual b = true := by
  cases a
  exact entriesEqual_of_forall₂ names equal

/-- **Values that show the same are equal**, either way round, unless they hold NaN. -/
theorem Value.isEqual_of_same {a b : Value} (same : a.Same b)
    (notNaN : a.EachScalar Scalar.IsNotNaN) : a.isEqual b = true ∧ b.isEqual a = true := by
  induction a using Value.inductionOn generalizing b with
  | scalar content =>
    cases same
    cases notNaN with
    | scalar here => exact ⟨Scalar.isEqual_self here, Scalar.isEqual_self here⟩
  | record content ih =>
    cases same with
    | @record _ other names values =>
      cases notNaN with
      | record each =>
        have equal : List.Forall₂ (List.Forall₂ fun a b => a.isEqual b = true ∧ b.isEqual a = true)
            (content.fields.map (·.2)) (other.fields.map (·.2)) := by
          refine (forall₂_with_mem values).imp fun held _ known => ?_
          obtain ⟨listed, _, alike⟩ := known
          obtain ⟨entry, shown, rfl⟩ := List.mem_map.mp listed
          have stored := List.mem_of_mem_filter shown
          refine (forall₂_with_mem alike).imp fun value _ known => ?_
          obtain ⟨among, _, same⟩ := known
          exact ih entry stored value among same (each entry stored value among)
        refine ⟨Record.isEqual_of_forall₂ names ?_, Record.isEqual_of_forall₂ names.symm ?_⟩
        · exact equal.imp fun _ _ here => here.imp fun _ _ both => both.1
        · exact (equal.imp fun _ _ here => (here.imp fun _ _ both => both.2).flip).flip

/-- A record is equal to the one without empty entries, if its floating-point numbers are finite. -/
theorem Record.isEqual_pruned {record : Record}
    (finite : (Value.record record).EachScalar Scalar.IsFinite) :
    record.pruned.isEqual record = true :=
  (Value.isEqual_of_same record.same_pruned.symm
    (finite.mono fun _ => Scalar.IsFinite.isNotNaN)).2

end NestedColumns
