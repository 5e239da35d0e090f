/-
What erasure leaves.

`Field.Erases` says which values a record has after erasure: those of the covered fields, each
erased in its turn, and no others.

Under the projection of all leaves every field is covered, and a record that conforms to the schema
has no other fields. So nothing is erased but entries without values
(`Projection.erase_all_eq_pruned`).
-/

import NestedColumns.Projection.Erase
import NestedColumns.Proofs.Projection.Selection
import NestedColumns.Proofs.Record.Pruned
import NestedColumns.Proofs.Striping.Visits

namespace NestedColumns

namespace Field

variable {covered : FieldId → Bool}

/-! ### The fields of an erased record -/

/-- What erasure adds to a record that has no values for the given fields yet: the values of the
covered ones. -/
structure Erases (covered : FieldId → Bool) (fields : List Field) (record kept after : Record) :
    Prop where
  sorted : after.Sorted
  inhabited : after.Inhabited
  own : ∀ field ∈ fields, covered field.label.id = true → after.getAll field.label.name =
    (record.getAll field.label.name).map fun value => field.eraseValue covered value
  other : ∀ name, (∀ field ∈ fields, covered field.label.id = true → field.label.name ≠ name) →
    after.getAll name = kept.getAll name

theorem erases_eraseFields {fields : List Field} {kept : Record} (record : Record)
    (named : (fields.map (·.label.name)).Nodup) (sorted : kept.Sorted) (inhabited : kept.Inhabited)
    (fresh : ∀ field ∈ fields, kept.getAll field.label.name = []) :
    Erases covered fields record kept (eraseFields covered fields record kept) := by
  induction fields generalizing kept with
  | nil =>
    rw [eraseFields]
    exact ⟨sorted, inhabited, by simp, fun _ _ => rfl⟩
  | cons field fields ih =>
    rw [List.forall_mem_cons] at fresh
    rw [List.map_cons, List.nodup_cons] at named
    have differ : ∀ other ∈ fields, other.label.name ≠ field.label.name :=
      fun other member same => named.1 (List.mem_map.mpr ⟨other, member, same⟩)
    rw [eraseFields]
    by_cases covers : covered field.label.id = true
    · rw [if_pos covers]
      have rest := ih named.2
        (sorted.append : (kept.append field.label.name ((record.getAll field.label.name).map
          fun value => field.eraseValue covered value)).Sorted) (inhabited.append sorted _ _)
        fun other member => by
          rw [Record.getAll_append_of_ne (differ other member), fresh.2 other member]
      refine ⟨rest.sorted, rest.inhabited, ?_, fun name apart => ?_⟩
      · rw [List.forall_mem_cons]
        refine ⟨fun _ => ?_, rest.own⟩
        rw [rest.other _ fun other member _ => differ other member,
          Record.getAll_append_self sorted, fresh.1, List.nil_append]
      · rw [List.forall_mem_cons] at apart
        rw [rest.other name apart.2, Record.getAll_append_of_ne (Ne.symm (apart.1 covers))]
    · rw [if_neg covers]
      have rest := ih named.2 sorted inhabited fresh.2
      refine ⟨rest.sorted, rest.inhabited, ?_, fun name apart => ?_⟩
      · rw [List.forall_mem_cons]
        exact ⟨fun among => absurd among covers, rest.own⟩
      · rw [List.forall_mem_cons] at apart
        exact rest.other name apart.2

/-- What erasure leaves of a record. -/
theorem erases_empty (covered : FieldId → Bool) {fields : List Field} (record : Record)
    (named : (fields.map (·.label.name)).Nodup) :
    Erases covered fields record Record.empty (eraseFields covered fields record Record.empty) :=
  erases_eraseFields record named Record.sorted_empty (by simp [Record.Inhabited, Record.empty])
    fun _ _ => rfl

/-- A record whose names are all known has no values under other names. -/
theorem getAll_eq_nil_of_unknownName? {fields : List Field} {record : Record}
    (known : unknownName? fields record = none) {name : String}
    (apart : ∀ field ∈ fields, field.label.name ≠ name) : record.getAll name = [] := by
  by_contra some
  have member := Record.mem_entries_of_getAll some
  obtain ⟨field, among, same⟩ := unknownName?_eq_none_iff.mp known (name, record.getAll name)
    (List.mem_filter.mpr ⟨member, by simpa using some⟩)
  exact apart field among same

/-! ### Nothing is erased -/

theorem eraseFields_eq_pruned {fields : List Field} {record : Record}
    (each : ∀ field ∈ fields, ∀ value, field.Admits value → value.IsOrdered →
      field.eraseValue covered value = value.pruned)
    (covers : ∀ field ∈ fields, covered field.label.id = true)
    (named : (fields.map (·.label.name)).Nodup) (known : unknownName? fields record = none)
    (admitted : ∀ field ∈ fields, ∀ value ∈ record.getAll field.label.name, field.Admits value)
    (ordered : record.IsOrdered) :
    eraseFields covered fields record Record.empty = record.pruned := by
  have erases := erases_empty covered record named
  refine Record.ext_getAll erases.sorted ordered.sorted.pruned erases.inhabited
    (Record.inhabited_pruned record) fun name => ?_
  rw [Record.getAll_pruned ordered.sorted]
  by_cases own : ∃ field ∈ fields, field.label.name = name
  · obtain ⟨field, member, rfl⟩ := own
    rw [erases.own field member (covers field member)]
    refine List.map_congr_left fun value among => ?_
    exact each field member value (admitted field member value among)
      (ordered.of_mem_getAll among)
  · have apart : ∀ field ∈ fields, field.label.name ≠ name :=
      fun field member same => own ⟨field, member, same⟩
    rw [erases.other name fun field member _ => apart field member,
      getAll_eq_nil_of_unknownName? known apart]
    rfl

theorem admits_of_admitsAll {record : Record} {fields : List Field}
    (admitted : AdmitsAll fields record) :
    ∀ field ∈ fields, ∀ value ∈ record.getAll field.label.name, field.Admits value := by
  induction fields with
  | nil => simp
  | cons field fields ih =>
    rw [AdmitsAll] at admitted
    rw [List.forall_mem_cons]
    exact ⟨admitted.1.2, ih admitted.2⟩

mutual

theorem eraseValue_eq_pruned {path : Path} {column : Nat} : ∀ {field : Field}, field.WellFormed →
    (∀ node ∈ field.walk path column, covered node.id = true) →
    ∀ value, field.Admits value → value.IsOrdered → field.eraseValue covered value = value.pruned
  | .leaf label type, _, _, .scalar content, _, _ => by rw [eraseValue, Value.pruned]; simp
  | .leaf label type, _, _, .record record, admitted, _ => by
    rw [Admits, Value.kind] at admitted
    cases admitted
  | .group label children, _, _, .scalar content, admitted, _ => by
    rw [Admits] at admitted
    cases admitted
  | .group label children, .group _ _ named _ each, covers, .record record, admitted, ordered => by
    rw [Admits] at admitted
    rw [eraseValue, Value.pruned]
    have below : ∀ node ∈ walkAll path column children, covered node.id = true :=
      fun node member => covers node (List.mem_cons_of_mem _ member)
    refine congrArg Value.record (eraseFields_eq_pruned (eraseValues_eq_pruned each below)
      (fun field member => ?_) named admitted.1 (admits_of_admitsAll admitted.2) ordered)
    obtain ⟨node, among, rfl⟩ := exists_mem_walkAll member
    exact below node among

theorem eraseValues_eq_pruned {path : Path} {column : Nat} : ∀ {fields : List Field},
    (∀ field ∈ fields, field.WellFormed) →
    (∀ node ∈ walkAll path column fields, covered node.id = true) →
    ∀ field ∈ fields, ∀ value, field.Admits value → value.IsOrdered →
      field.eraseValue covered value = value.pruned
  | [], _, _ => by simp
  | field :: fields, wellFormed, covers => by
    rw [walkAll, List.forall_mem_append] at covers
    rw [List.forall_mem_cons] at wellFormed ⊢
    exact ⟨eraseValue_eq_pruned wellFormed.1 covers.1, eraseValues_eq_pruned wellFormed.2 covers.2⟩

end

end Field

namespace Projection

variable {schema : Schema}

theorem covers_all (accepted : schema.IsAccepted) {node : Node} (member : node ∈ schema.nodes) :
    (all schema).covers schema node.id = true := by
  by_cases root : node.path = []
  · have top : node = schema.root := by
      rcases List.mem_cons.mp member with same | below
      · exact same
      · exact absurd root (Field.path_ne_nil_of_mem_walkAll below)
    rw [top, covers]
    rfl
  rw [IsOf.all.covers_iff accepted member root]
  obtain ⟨leaf, below⟩ := List.exists_mem_of_ne_nil _
    (Field.leaves_ne_nil_of_mem_walk accepted.wellFormed member)
  have among := Schema.leaves_subset member below
  exact ⟨leaf, below, List.contains_iff_mem.mpr (List.mem_map_of_mem among)⟩

/-- **The projection of all leaves erases nothing but entries without values.** -/
theorem erase_all_eq_pruned (accepted : schema.IsAccepted) {record : Record}
    (admitted : schema.Admits record) (ordered : record.IsOrdered) :
    (all schema).erase schema record = record.pruned := by
  have whole : schema.root.field.eraseValue _ (.record record) = (Value.record record).pruned :=
    Field.eraseValue_eq_pruned accepted.wellFormed (fun node member => covers_all accepted member) _
      admitted ordered
  rw [Schema.root, Field.eraseValue, Value.pruned] at whole
  exact Value.record.inj whole

end Projection

end NestedColumns
