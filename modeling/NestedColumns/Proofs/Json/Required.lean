/-
Records that were read lack nothing but required fields.

Reading a record from a JSON object refuses what staging would refuse, but for required fields that
are missing: whether they are there is not looked at. `Json.HasRequired` says of the JSON value that
they are.

* `Field.Reads.conforms_iff` — a value that is read conforms to its field exactly if the JSON value
  gives every required field, in every instance of a group.
* `Value.Violates.eq_requiredMissing` — in a value that conforms but for what it lacks, nothing else
  can be found wrong.
* `Schema.stage_of_recordOfJson` — **a record that was read is staged exactly if nothing that is
  required is missing**, and is otherwise refused for that and nothing else.
-/

import NestedColumns.Proofs.Json.Reading

namespace NestedColumns

/-- **A JSON value gives every required field**: in the object itself and in every instance of a group
below it, a member that is not `null` has the name of each required child. -/
inductive Json.HasRequired : Field → Json → Prop
  | leaf {label : Label} {type : ScalarType} {json : Json} : HasRequired (.leaf label type) json
  | group {label : Label} {children : List Field} {members : List (String × Json)}
      (present : ∀ child ∈ children, child.label.cardinality = .required →
        ∃ member ∈ members, member.1 = child.label.name ∧ member.2 ≠ .null)
      (each : ∀ child ∈ children, ∀ member ∈ members, member.1 = child.label.name →
        ∀ item ∈ member.2.instances, item.HasRequired child) :
      HasRequired (.group label children) (.object members)

/-- A count for which there is room is allowed, unless a required value is missing. -/
theorem Cardinality.HasRoomFor.allows_iff {cardinality : Cardinality} {count : Nat}
    (room : cardinality.HasRoomFor count) :
    cardinality.Allows count ↔ (cardinality = .required → count ≠ 0) := by
  unfold HasRoomFor at room
  cases cardinality with
  | required =>
    simp [Allows, isRepeated] at room ⊢
    omega
  | optional => simpa [Allows, isRepeated] using room
  | repeated => simp [Allows]

theorem Json.instances_eq_nil_iff {json : Json} :
    json.instances = [] ↔ json = .null ∨ json = .array [] := by
  cases json <;> simp [instances]

/-! ### What a member gives and what its field holds -/

section Members

variable {child : Field} {members : List (String × Json)} {values : String × Json → List Value}
  (sorted : Entries.IsOrdered members)
  (counts : ∀ member ∈ members, member.2.instances.length = (values member).length)

include sorted counts

/-- A field has an allowed number of values exactly if it is not required or is given one: where an
array is empty, the field is repeated. -/
theorem Record.allows_iff_present
    (repeated : ∀ member ∈ members, child.label.name = member.1 →
      ∀ items, member.2 = .array items → child.label.cardinality.isRepeated = true)
    (room : child.label.cardinality.HasRoomFor
      ((ofMembers members values).getAll child.label.name).length) :
    child.label.cardinality.Allows ((ofMembers members values).getAll child.label.name).length ↔
      (child.label.cardinality = .required →
        ∃ member ∈ members, member.1 = child.label.name ∧ member.2 ≠ .null) := by
  rw [room.allows_iff]
  refine forall_congr' fun required => ?_
  rw [Ne, List.length_eq_zero_iff]
  constructor
  · intro some
    obtain ⟨member, among, same, own⟩ := exists_member_of_getAll some
    refine ⟨member, among, same, fun null => some ?_⟩
    rw [own, ← List.length_eq_zero_iff, ← counts member among, null]
    rfl
  · rintro ⟨member, among, same, notNull⟩ none
    rw [← same, getAll_ofMembers sorted among, ← List.length_eq_zero_iff, ← counts member among,
      List.length_eq_zero_iff, Json.instances_eq_nil_iff] at none
    rcases none with null | array
    · exact notNull null
    · have repeats := repeated member among same.symm [] array
      rw [required] at repeats
      cases repeats

/-- Something holds of all values of a field if what it says of their JSON values holds of all that
are given. -/
theorem Record.forall_getAll_iff {name : String} {given : Json → Prop} {held : Value → Prop}
    (alike : ∀ member ∈ members, member.1 = name → ∀ item value,
      (item, value) ∈ member.2.instances.zip (values member) → (held value ↔ given item)) :
    (∀ value ∈ (ofMembers members values).getAll name, held value) ↔
      ∀ member ∈ members, member.1 = name → ∀ item ∈ member.2.instances, given item := by
  constructor
  · rintro each member among rfl item inside
    obtain ⟨value, paired⟩ := Field.exists_value_of_mem (counts member among) inside
    refine (alike member among rfl item value paired).mp (each value ?_)
    rw [getAll_ofMembers sorted among]
    exact (List.of_mem_zip paired).2
  · intro each value among
    obtain ⟨member, listed, same, own⟩ := exists_member_of_getAll (List.ne_nil_of_mem among)
    rw [own] at among
    obtain ⟨item, paired⟩ := Field.exists_instance_of_mem (counts member listed) among
    exact (alike member listed same item value paired).mpr
      (each member listed same item (List.of_mem_zip paired).1)

end Members

/-- **A value that is read conforms** exactly if its JSON value gives every required field. -/
theorem Field.Reads.conforms_iff {field : Field} {json : Json} {value : Value}
    (reads : field.Reads json value) :
    value.Conforms Cardinality.Allows field ↔ json.HasRequired field := by
  induction reads with
  | scalar read => exact iff_of_true (.scalar (ScalarType.type_of_ofJson? read)) .leaf
  | @record label children members values sorted known repeated counts each ih =>
    have reads : (Field.group label children).Reads (.object members)
      (.record (.ofMembers members values)) := .record sorted known repeated counts each
    obtain ⟨recognised, room⟩ : (∀ entry ∈ (Record.ofMembers members values).fields,
        ∃ child ∈ children, child.label.name = entry.1) ∧ ∀ child ∈ children,
          child.label.cardinality.HasRoomFor
            ((Record.ofMembers members values).getAll child.label.name).length := by
      cases reads.conforms with
      | record recognised room _ => exact ⟨recognised, room⟩
    have present (child : Field) (listed : child ∈ children) := Record.allows_iff_present sorted counts
      (fun member among => repeated member among child listed) (room child listed)
    have below (child : Field) (listed : child ∈ children) := Record.forall_getAll_iff sorted counts
      fun member among same => ih member among child listed same.symm
    constructor
    · intro conforms
      cases conforms with
      | record _ allowed conform =>
        exact .group (fun child listed => (present child listed).mp (allowed child listed))
          fun child listed => (below child listed).mp (conform child listed)
    · intro complete
      cases complete with
      | group some complete =>
        exact .record recognised (fun child listed => (present child listed).mpr (some child listed))
          fun child listed => (below child listed).mpr (complete child listed)

/-- Of a value that conforms but for what it lacks, only a missing field can be reported. -/
theorem Value.Violates.eq_requiredMissing {path : Path} {field : Field} {value : Value}
    {place : String} {reason : MismatchReason} (violates : value.Violates path field place reason)
    (conforms : value.Conforms Cardinality.HasRoomFor field) : reason = .requiredMissing := by
  induction violates with
  | recordForScalar => cases conforms
  | scalarForGroup => cases conforms
  | typeMismatch differs =>
    cases conforms with
    | scalar typed => exact absurd typed differs
  | unknownField member unknown =>
    cases conforms with
    | record known _ _ =>
      obtain ⟨child, listed, named⟩ := known _ member
      exact absurd named (unknown child listed)
  | requiredMissing => rfl
  | tooManyValues member single several =>
    cases conforms with
    | record _ room _ =>
      rcases room _ member with repeats | few
      · exact absurd repeats (by simp [single])
      · exact absurd several (Nat.not_lt_of_le few)
  | nested member among _ ih =>
    cases conforms with
    | record _ _ each => exact ih (each _ member _ among)

/-! ### A sample document -/

namespace Sample

/-- The document without the code of its second language, as a JSON object. -/
def incompleteDocument : Json :=
  .object
    [ ("DocId", .number (.integer 40)),
      ("Name", .array
        [ .object
            [ ("Language", .array
                [ .object [("Code", .string "en")],
                  .object [("Code", .null), ("Country", .string "us")] ]) ] ]) ]

theorem isWellFormed_incompleteDocument : incompleteDocument.IsWellFormed := by
  have first : (Json.object [("Code", .string "en")]).IsWellFormed :=
    .object (List.pairwise_singleton _ _) (List.forall_mem_singleton.mpr (.string "en"))
  have second : (Json.object [("Code", .null), ("Country", .string "us")]).IsWellFormed :=
    .object (List.pairwise_pair.mpr (by decide))
      (List.forall_mem_cons.mpr ⟨.null, List.forall_mem_singleton.mpr (.string "us")⟩)
  have languages := Json.IsWellFormed.array
    (List.forall_mem_cons.mpr ⟨first, List.forall_mem_singleton.mpr second⟩)
  have name : (Json.object [("Language", _)]).IsWellFormed :=
    .object (List.pairwise_singleton _ _) (List.forall_mem_singleton.mpr languages)
  refine .object (List.pairwise_pair.mpr (by decide)) (List.forall_mem_cons.mpr ⟨?_, ?_⟩)
  · exact .number (by unfold JsonNumber.IsStored; decide)
  · exact List.forall_mem_singleton.mpr (.array (List.forall_mem_singleton.mpr name))

end Sample

namespace Schema

variable {schema : Schema} {json : Json} {record : Record}

/-- **A record that was read lacks nothing but required fields.** Staging takes it exactly if the JSON
object gives every required field, in every instance of a group. Otherwise it is refused because a
required field is missing, at a place where one is, and for no other reason. -/
theorem stage_of_recordOfJson (accepted : schema.IsAccepted) (wellFormed : json.IsWellFormed)
    (read : schema.recordOfJson json = .ok record) :
    ((∃ staged, schema.stage record = .ok staged) ↔ json.HasRequired schema.root.field) ∧
      ((∃ staged, schema.stage record = .ok staged) ∨
        ∃ place fault, schema.stage record = .error fault ∧
          fault = .schemaMismatch place .requiredMissing ∧
          fault.parts = [place, "required field is missing"] ∧
          (Value.record record).Violates [] schema.root.field place .requiredMissing) := by
  have reads := reads_of_recordOfJson accepted wellFormed read
  have asked : schema.Admits record ↔ json.HasRequired schema.root.field :=
    Field.admits_iff_conforms.trans reads.conforms_iff
  cases ended : (schema.shred record).fault with
  | none =>
    have admitted := shred_meets.accepts.mp ended
    exact ⟨iff_of_true ⟨_, stage_eq_ok admitted⟩ (asked.mp admitted), .inl ⟨_, stage_eq_ok admitted⟩⟩
  | some fault =>
    have failed : schema.stage record = .error fault := by
      unfold stage
      rw [into_stage, ended]
    have refused : ¬ ∃ staged, schema.stage record = .ok staged := by
      rintro ⟨staged, taken⟩
      rw [failed] at taken
      cases taken
    have incomplete : ¬ json.HasRequired schema.root.field := by
      rw [← asked, ← shred_meets.accepts, ended]
      exact Option.some_ne_none fault
    obtain ⟨place, reason, rfl, violates⟩ := (schema.shred_emits record).names fault ended
    obtain rfl := violates.eq_requiredMissing reads.conforms
    exact ⟨iff_of_false refused incomplete, .inr ⟨place, _, failed, rfl, rfl, violates⟩⟩

/-- A language whose code is `null` is read, but not staged. -/
theorem stage_incompleteDocument :
    Sample.documentType.IsAccepted ∧ Sample.incompleteDocument.IsWellFormed ∧
      Sample.documentType.recordOfJson Sample.incompleteDocument = .ok Sample.brokenDocument ∧
      ((∃ staged, Sample.documentType.stage Sample.brokenDocument = .ok staged) ↔
        Sample.incompleteDocument.HasRequired Sample.documentType.root.field) ∧
      ((∃ staged, Sample.documentType.stage Sample.brokenDocument = .ok staged) ∨
        ∃ place fault, Sample.documentType.stage Sample.brokenDocument = .error fault ∧
          fault = .schemaMismatch place .requiredMissing ∧
          fault.parts = [place, "required field is missing"] ∧
          (Value.record Sample.brokenDocument).Violates [] Sample.documentType.root.field place
            .requiredMissing) :=
  have read : Sample.documentType.recordOfJson Sample.incompleteDocument =
    .ok Sample.brokenDocument := rfl
  ⟨Sample.documentType_isAccepted, Sample.isWellFormed_incompleteDocument, read,
    stage_of_recordOfJson Sample.documentType_isAccepted Sample.isWellFormed_incompleteDocument read⟩

end Schema

end NestedColumns
