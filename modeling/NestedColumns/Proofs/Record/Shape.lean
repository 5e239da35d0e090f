/-
Records of the shape of a schema.

A record has the shape of a group (`Fills`) if every entry stands for one of its fields, which the
projection covers, a field that is not repeated holds at most one value, and every value has the shape
of its field (`Field.Shapes`): a scalar of its type, or a record of the shape of the group. Nothing is
said of required fields that are missing.

While a record is put together, one value after the other is pushed, and it keeps its shape if there
is room for each of them (`Fills.push`). Values come in the order of the fields (`Filling`): the
fields after the one that is being filled hold nothing yet.
-/

import NestedColumns.Proofs.Record.Focus
import NestedColumns.Proofs.Schema.Ways

namespace NestedColumns

namespace Field

mutual

/-- The values that a field may hold, as far as a projection covers it. -/
def Shapes (covered : FieldId → Bool) : Field → Value → Prop
  | .leaf _ type, value => value.kind = .scalar type
  | .group _ children, .record record =>
    record.Sorted ∧
      (∀ entry ∈ record.entries, ∃ child ∈ children,
        child.label.name = entry.1 ∧ covered child.label.id = true) ∧
      ShapesAll covered children record
  | .group .., .scalar _ => False
termination_by structural field => field

/-- Each of the given fields of a record holds values that it may hold, and more than one only if it
is repeated. -/
def ShapesAll (covered : FieldId → Bool) : List Field → Record → Prop
  | [], _ => True
  | field :: fields, record =>
    ((record.getAll field.label.name).length ≤ 1 ∨ field.label.cardinality.isRepeated = true) ∧
      (∀ value ∈ record.getAll field.label.name, field.Shapes covered value) ∧
      ShapesAll covered fields record
termination_by structural fields => fields

end

theorem shapesAll_iff {covered : FieldId → Bool} {fields : List Field} {record : Record} :
    ShapesAll covered fields record ↔ ∀ field ∈ fields,
      ((record.getAll field.label.name).length ≤ 1 ∨ field.label.cardinality.isRepeated = true) ∧
        ∀ value ∈ record.getAll field.label.name, field.Shapes covered value := by
  induction fields with
  | nil => simp [ShapesAll]
  | cons field fields ih => rw [ShapesAll, ih, List.forall_mem_cons, and_assoc]

end Field

namespace Record

/-- **A record of the shape of a group** with the given fields. -/
structure Fills (covered : FieldId → Bool) (fields : List Field) (record : Record) : Prop where
  sorted : record.Sorted
  known : ∀ entry ∈ record.entries, ∃ field ∈ fields,
    field.label.name = entry.1 ∧ covered field.label.id = true
  each : ∀ field ∈ fields,
    ((record.getAll field.label.name).length ≤ 1 ∨ field.label.cardinality.isRepeated = true) ∧
      ∀ value ∈ record.getAll field.label.name, field.Shapes covered value

/-- A field may take one more value. -/
def HasRoom (record : Record) (label : Label) : Prop :=
  label.cardinality.isRepeated = true ∨ record.getAll label.name = []

variable {covered : FieldId → Bool} {fields : List Field} {field : Field} {record : Record}
  {value : Value} {n : Nat}

theorem fills_iff {label : Label} :
    (Field.group label fields).Shapes covered (.record record) ↔ record.Fills covered fields := by
  rw [Field.Shapes, Field.shapesAll_iff]
  constructor
  · rintro ⟨sorted, known, each⟩
    exact ⟨sorted, known, each⟩
  · rintro ⟨sorted, known, each⟩
    exact ⟨sorted, known, each⟩

theorem fills_empty (covered : FieldId → Bool) (fields : List Field) :
    Record.empty.Fills covered fields where
  sorted := sorted_empty
  known := fun _ none => absurd none List.not_mem_nil
  each := fun _ _ => ⟨.inl (Nat.zero_le 1), fun _ none => absurd none List.not_mem_nil⟩

theorem getAll_push_self (sorted : record.Sorted) {name : String} :
    (record.push name value).getAll name = record.getAll name ++ [value] :=
  getAll_change_self sorted

theorem getAll_push_of_ne {name other : String} (differs : other ≠ name) :
    (record.push name value).getAll other = record.getAll other :=
  getAll_change_of_ne differs

/-- **A value is added where there is room for it.** -/
theorem Fills.push (fills : record.Fills covered fields) (named : (fields.map (·.label.name)).Nodup)
    (member : field ∈ fields) (among : covered field.label.id = true)
    (room : record.HasRoom field.label) (shapes : field.Shapes covered value) :
    (record.push field.label.name value).Fills covered fields where
  sorted := fills.sorted.change
  known := by
    intro entry listed
    rcases Entries.mem_change listed with new | old
    · exact ⟨field, member, new.symm, among⟩
    · exact fills.known entry old
  each := by
    intro other member'
    by_cases same : other.label.name = field.label.name
    · obtain rfl : other = field := List.inj_on_of_nodup_map named member' member same
      rw [getAll_push_self fills.sorted]
      refine ⟨?_, fun taken inside => ?_⟩
      · rcases room with repeats | none
        · exact .inr repeats
        · exact .inl (by rw [none]; exact Nat.le_refl 1)
      · rcases List.mem_append.mp inside with old | new
        · exact (fills.each other member).2 taken old
        · rw [List.mem_singleton.mp new]
          exact shapes
    · rw [getAll_push_of_ne same]
      exact fills.each other member'

/-- A record that is filled in the order of the fields, up to the `n`-th. -/
structure Filling (covered : FieldId → Bool) (fields : List Field) (n : Nat) (record : Record) :
    Prop where
  fills : record.Fills covered fields
  later : ∀ m field, n < m → fields[m]? = some field → record.getAll field.label.name = []

theorem filling_empty (covered : FieldId → Bool) (fields : List Field) (n : Nat) :
    Record.empty.Filling covered fields n where
  fills := fills_empty covered fields
  later := fun _ _ _ _ => rfl

theorem Filling.mono {m : Nat} (filling : record.Filling covered fields n) (le : n ≤ m) :
    record.Filling covered fields m where
  fills := filling.fills
  later := fun k other less found => filling.later k other (Nat.lt_of_le_of_lt le less) found

theorem Filling.push (filling : record.Filling covered fields n)
    (named : (fields.map (·.label.name)).Nodup) (found : fields[n]? = some field)
    (among : covered field.label.id = true) (room : record.HasRoom field.label)
    (shapes : field.Shapes covered value) :
    (record.push field.label.name value).Filling covered fields n where
  fills := filling.fills.push named (List.mem_of_getElem? found) among room shapes
  later := by
    intro m other less found'
    have differs : other.label.name ≠ field.label.name := fun same =>
      Nat.ne_of_gt less (index_eq_of_nodup_map named found' found same)
    rw [getAll_push_of_ne differs]
    exact filling.later m other less found'

end Record

end NestedColumns
