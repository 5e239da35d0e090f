/-
Erasing by several projections.

Erasing twice leaves the fields that both projections cover (`Field.eraseValue_eraseValue`), at every
depth and for every value: an instance of a group that both cover is kept even where they have no leaf
below it in common, and what does not have the shape of its field passes both times. The order of the
two therefore does not matter, and the smaller of two projections decides (`erase_algebra`).
-/

import NestedColumns.Proofs.Projection.Erasure
import NestedColumns.Proofs.Record.Same

namespace NestedColumns

namespace Field

variable {covered covered' : FieldId → Bool}

/-- **Erasing the fields of a record twice** leaves those that are covered both times. -/
theorem eraseFields_eraseFields {fields : List Field}
    (each : ∀ field ∈ fields, ∀ value, field.eraseValue covered (field.eraseValue covered' value) =
      field.eraseValue (fun id => covered id && covered' id) value)
    (named : (fields.map (·.label.name)).Nodup) (record : Record) :
    eraseFields covered fields (eraseFields covered' fields record Record.empty) Record.empty =
      eraseFields (fun id => covered id && covered' id) fields record Record.empty := by
  have first := erases_empty covered' record named
  have second := erases_empty covered (eraseFields covered' fields record Record.empty) named
  have once := erases_empty (fun id => covered id && covered' id) record named
  refine Record.ext_getAll second.sorted once.sorted second.inhabited once.inhabited fun name => ?_
  by_cases both : ∃ field ∈ fields, field.label.name = name ∧
      (covered field.label.id && covered' field.label.id) = true
  · obtain ⟨field, member, rfl, kept⟩ := both
    obtain ⟨covers, covers'⟩ := Bool.and_eq_true_iff.mp kept
    rw [second.own field member covers, first.own field member covers', once.own field member kept,
      List.map_map]
    exact List.map_congr_left fun value _ => each field member value
  · rw [once.other name fun field member kept same => both ⟨field, member, same, kept⟩]
    by_cases own : ∃ field ∈ fields, field.label.name = name ∧ covered field.label.id = true
    · obtain ⟨field, member, rfl, covers⟩ := own
      -- a field of that name is the same field, so the first time it was not covered
      have dropped : ∀ other ∈ fields, covered' other.label.id = true →
          other.label.name ≠ field.label.name := by
        intro other member' covers' same
        obtain rfl := List.inj_on_of_nodup_map named member' member same
        exact both ⟨other, member, rfl, Bool.and_eq_true_iff.mpr ⟨covers, covers'⟩⟩
      rw [second.own field member covers, first.other _ dropped]
      rfl
    · rw [second.other name fun field member covers same => own ⟨field, member, same, covers⟩]

mutual

theorem eraseValue_eraseValue : ∀ {field : Field}, field.WellFormed → ∀ value,
    field.eraseValue covered (field.eraseValue covered' value) =
      field.eraseValue (fun id => covered id && covered' id) value
  | .leaf label type, _, value => by simp [eraseValue]
  | .group label children, _, .scalar content => by simp [eraseValue]
  | .group label children, .group _ _ named _ each, .record record => by
    rw [eraseValue, eraseValue, eraseValue]
    exact congrArg Value.record
      (eraseFields_eraseFields (eraseValues_eraseValues each) named record)

theorem eraseValues_eraseValues : ∀ {fields : List Field}, (∀ field ∈ fields, field.WellFormed) →
    ∀ field ∈ fields, ∀ value, field.eraseValue covered (field.eraseValue covered' value) =
      field.eraseValue (fun id => covered id && covered' id) value
  | [], _ => by simp
  | field :: fields, wellFormed => by
    rw [List.forall_mem_cons] at wellFormed ⊢
    exact ⟨eraseValue_eraseValue wellFormed.1, eraseValues_eraseValues wellFormed.2⟩

end

end Field

namespace Projection

variable {schema : Schema}

/-- **Erasing by two projections** leaves what both cover. -/
theorem erase_erase (accepted : schema.IsAccepted) (p q : Projection) (record : Record) :
    p.erase schema (q.erase schema record) =
      Field.eraseFields (fun id => p.covers schema id && q.covers schema id) schema.fields record
        Record.empty := by
  have whole := @Field.eraseValue_eraseValue (p.covers schema) (q.covers schema) _
    accepted.wellFormed (.record record)
  rw [Schema.root, Field.eraseValue, Field.eraseValue, Field.eraseValue] at whole
  exact Value.record.inj whole

/-- More leaves cover more fields. -/
theorem covers_mono {p q : Projection} (among : ∀ id ∈ p.fields, id ∈ q.fields) {id : FieldId}
    (covers : p.covers schema id = true) : q.covers schema id = true := by
  unfold Projection.covers at covers ⊢
  rw [Bool.or_eq_true, List.any_eq_true] at covers ⊢
  exact covers.imp_right fun ⟨leaf, selected, below⟩ => ⟨leaf, among leaf selected, below⟩

/-- **What two projections leave of a record** does not depend on their order, and of two projections
the one that selects fewer leaves decides. The selection of all leaves erases nothing that is shown
of a record that conforms. -/
theorem erase_algebra (accepted : schema.IsAccepted) (p q : Projection) (record : Record) :
    p.erase schema (q.erase schema record) = q.erase schema (p.erase schema record) ∧
      ((∀ id ∈ p.fields, id ∈ q.fields) →
        p.erase schema (q.erase schema record) = p.erase schema record ∧
          q.erase schema (p.erase schema record) = p.erase schema record) ∧
      p.erase schema (p.erase schema record) = p.erase schema record ∧
      (record.IsOrdered → ∀ staged, schema.stage record = .ok staged →
        ((all schema).erase schema record).Same record) := by
  have commute : p.erase schema (q.erase schema record) = q.erase schema (p.erase schema record) := by
    rw [erase_erase accepted, erase_erase accepted]
    refine congrArg (fun covered => Field.eraseFields covered schema.fields record Record.empty) ?_
    exact funext fun id => Bool.and_comm _ _
  have absorb : ∀ {q : Projection}, (∀ id ∈ p.fields, id ∈ q.fields) →
      p.erase schema (q.erase schema record) = p.erase schema record := by
    intro q among
    rw [erase_erase accepted]
    refine congrArg (fun covered => Field.eraseFields covered schema.fields record Record.empty) ?_
    exact funext fun id => Bool.and_eq_left_iff_imp.mpr (covers_mono among)
  refine ⟨commute, fun among => ⟨absorb among, commute ▸ absorb among⟩, absorb fun _ own => own, ?_⟩
  intro ordered staged taken
  rw [erase_all_eq_pruned accepted (Schema.stage_eq_ok_iff.mp taken).1 ordered]
  exact record.same_pruned

theorem erase_algebra_largeDocument :
    Sample.documentType.IsAccepted ∧ (∀ id ∈ [7], id ∈ [7, 9]) ∧ Sample.largeDocument.IsOrdered ∧
      ∃ staged, Sample.documentType.stage Sample.largeDocument = .ok staged ∧
        erase ⟨[7]⟩ Sample.documentType (erase ⟨[7, 9]⟩ Sample.documentType Sample.largeDocument) =
          erase ⟨[7]⟩ Sample.documentType Sample.largeDocument ∧
        ((all Sample.documentType).erase Sample.documentType Sample.largeDocument).Same
          Sample.largeDocument := by
  obtain ⟨_, smaller, _, whole⟩ := erase_algebra Sample.documentType_isAccepted ⟨[7]⟩ ⟨[7, 9]⟩
    Sample.largeDocument
  have among : ∀ id ∈ [7], id ∈ [7, 9] := by decide
  exact ⟨Sample.documentType_isAccepted, among, Sample.isOrdered_largeDocument, _, rfl,
    (smaller among).1, whole Sample.isOrdered_largeDocument _ rfl⟩

/-- A name stays if its codes and addresses are erased one after the other. -/
example : erase ⟨[7]⟩ Sample.documentType (erase ⟨[9]⟩ Sample.documentType Sample.smallDocument) =
    Sample.record [("Name", [Sample.group []])] := rfl

end Projection

end NestedColumns
