/-
Selections have one form.

A selection of leaves does not keep the order or the names in which it was asked for:
`isCanonical_ofIds` says when leaves can be selected by their numbers, that the selection is then the
list of the leaves of the schema restricted to them, what is reported otherwise, and that asking by
dotted paths comes to the same.
-/

import NestedColumns.Proofs.Projection.LeafOrder
import NestedColumns.Proofs.Schema.Paths

namespace NestedColumns.Projection

variable {schema : Schema} {ids : List FieldId}

/-- The selection of leaves by their numbers is determined by which leaves are asked for. -/
structure IsCanonical (schema : Schema) (ids : List FieldId) : Prop where
  /-- At least one leaf is selected, nothing but leaves, and each once. -/
  made_iff : (∃ projection, ofIds schema ids = .ok projection) ↔
    ids ≠ [] ∧ (∀ id ∈ ids, id ∈ schema.leafIds) ∧ ids.Nodup
  fields_eq : ∀ projection, ofIds schema ids = .ok projection →
    projection.fields = schema.leafIds.filter ids.contains
  /-- The order of the numbers does not matter. -/
  permuted : ∀ projection others, ofIds schema ids = .ok projection → others.Perm ids →
    ofIds schema others = .ok projection
  /-- A number that is unknown, that of a group, or given more than once does not fit the schema. -/
  refused : ∀ id ∈ ids, id ∉ schema.leafIds ∨ 1 < ids.count id →
    ∃ path reason, ofIds schema ids = .error (.schemaMismatch path reason)
  nothing : ids = [] → ofIds schema ids = .error (.invalidArgument .noFieldsSelected)
  /-- Fields may be given by their paths. -/
  ofPaths_eq : (∀ id ∈ ids, id ≠ rootId ∧ schema.contains id = true) →
    ofPaths schema (ids.map schema.fieldText) = ofIds schema ids

theorem exists_notLeafFault (schema : Schema) (id : FieldId) :
    ∃ path reason, notLeafFault schema id = .schemaMismatch path reason := by
  unfold notLeafFault
  cases schema.node? id with
  | none => exact ⟨_, _, rfl⟩
  | some node => exact ⟨_, _, rfl⟩

/-- **Wrong numbers do not fit the schema.** -/
theorem ofIds_refused (accepted : schema.IsAccepted) {id : FieldId} (given : id ∈ ids)
    (wrong : id ∉ schema.leafIds ∨ 1 < ids.count id) :
    ∃ path reason, ofIds schema ids = .error (.schemaMismatch path reason) := by
  cases first : ids.find? (fun id => id ∉ schema.leafIds) with
  | some other =>
    obtain ⟨path, reason, same⟩ := exists_notLeafFault schema other
    exact ⟨path, reason, same ▸ ofIds_notLeaf accepted first⟩
  | none =>
    have leaves : ∀ id ∈ ids, id ∈ schema.leafIds := fun id given => by
      simpa using List.find?_eq_none.mp first id given
    have often : 1 < ids.count id := wrong.resolve_left fun unknown => unknown (leaves id given)
    have again : ¬ ids.Nodup := fun once =>
      Nat.not_lt_of_le (List.nodup_iff_count_le_one.mp once id) often
    obtain ⟨leaf, _, _, failed⟩ := ofIds_twice accepted leaves again
    exact ⟨_, _, failed⟩

/-- The path of a field leads back to its number. -/
theorem idOfPath_fieldText (accepted : schema.IsAccepted) {id : FieldId} (field : id ≠ rootId)
    (known : schema.contains id = true) : idOfPath schema (schema.fieldText id) = .ok id := by
  obtain ⟨node, found⟩ := Option.isSome_iff_exists.mp known
  obtain ⟨member, rfl⟩ := Schema.mem_nodes_of_node? found
  have named := accepted.findPath?_eq_some_iff.mpr
    ⟨member, (accepted.path_ne_nil_iff member).mpr field, rfl⟩
  unfold idOfPath Schema.fieldText
  rw [found, named]

/-- **A selection is determined by which leaves are asked for**, whatever their order and whether by
numbers or by paths. -/
theorem isCanonical_ofIds (accepted : schema.IsAccepted) (ids : List FieldId) :
    IsCanonical schema ids := by
  constructor
  case made_iff =>
    refine ⟨fun ⟨projection, made⟩ => ((ofIds_eq_ok accepted).mp made).1, fun fits => ?_⟩
    exact ⟨_, (ofIds_eq_ok accepted).mpr ⟨fits, rfl⟩⟩
  case fields_eq => exact fun projection made => ((ofIds_eq_ok accepted).mp made).2
  case permuted =>
    intro projection others made same
    obtain ⟨⟨given, leaves, once⟩, fields⟩ := (ofIds_eq_ok accepted).mp made
    refine (ofIds_eq_ok accepted).mpr ⟨⟨?_, fun id other => leaves id (same.subset other),
      same.nodup_iff.mpr once⟩, ?_⟩
    · rintro rfl
      exact given same.nil_eq.symm
    · have contains : others.contains = ids.contains := by
        funext id
        rw [Bool.eq_iff_iff, List.contains_iff_mem, List.contains_iff_mem, same.mem_iff]
      rw [fields, contains]
  case refused => exact fun id given wrong => ofIds_refused accepted given wrong
  case nothing =>
    rintro rfl
    exact ofIds_nil schema
  case ofPaths_eq =>
    intro fields
    have known : (ids.map schema.fieldText).mapM (idOfPath schema) = .ok ids := by
      rw [mapM_eq_ok, List.forall₂_map_left_iff, List.forall₂_same]
      exact fun id given => idOfPath_fieldText accepted (fields id given).1 (fields id given).2
    unfold ofPaths
    rw [known]
    rfl

/-- The codes and countries of documents, asked for backwards and by their paths. -/
theorem isCanonical_codes_and_countries :
    Sample.documentType.IsAccepted ∧ IsCanonical Sample.documentType [8, 7] ∧
      ofPaths Sample.documentType ["Name.Language.Country", "Name.Language.Code"] = .ok ⟨[7, 8]⟩ := by
  have canonical := isCanonical_ofIds Sample.documentType_isAccepted [8, 7]
  refine ⟨Sample.documentType_isAccepted, canonical, ?_⟩
  obtain ⟨projection, made⟩ := canonical.made_iff.mpr (by decide +kernel)
  have fields : projection = ⟨[7, 8]⟩ :=
    congrArg Projection.mk (canonical.fields_eq projection made)
  rw [← fields, ← made, ← canonical.ofPaths_eq (by decide +kernel)]
  rfl

end NestedColumns.Projection
