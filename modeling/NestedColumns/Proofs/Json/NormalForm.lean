/-
The normal form of a JSON value that is read.

Many JSON values stand for one record. `Schema.normalForm` picks one of them without reading: the
numbers of floating-point fields are written as floating-point numbers (`Json.widen`), and at every
object level members without values are dropped and an array of one item becomes the item
(`Json.compact`).

* `Field.Reads.toJson_eq` — **what was read is written as the normal form**, by induction on what the
  JSON value stands for: a member is written from the values that its instances give, and both
  `Json.widen` and `Json.compact` go through the instances.
* `Schema.recordOfJson_normalForm` — a record is written as the normal form of what it was read from,
  and is read back from it.
-/

import NestedColumns.Proofs.Json.Reading
import NestedColumns.Proofs.Number.Rounding
import NestedColumns.Proofs.Record.Same

namespace NestedColumns

/-! ### The normal form -/

/-- A number as a floating-point number. -/
def JsonNumber.toFloat : JsonNumber → Binary64
  | .integer value => .ofInt value
  | .float value => value

/-- A number of a field, which is a floating-point number if the field holds these. -/
def JsonNumber.widen (field : Field) (value : JsonNumber) : JsonNumber :=
  match field with
  | .leaf _ .float64 => .float value.toFloat
  | _ => value

/-- A member of an object as it is kept: without values it is not, and a single item stands for
itself. -/
def Json.bare? : Json → Option Json
  | .null | .array [] => none
  | .array [single] => some single
  | json => some json

mutual

/-- **A JSON value in short**: in every object, members without values are dropped and arrays of one
item are replaced by the item. -/
def Json.compact : Json → Json
  | .array items => .array (Json.compactItems items)
  | .object members => .object (Json.compactMembers members)
  | json => json
termination_by structural json => json

def Json.compactItems : List Json → List Json
  | [] => []
  | item :: items => item.compact :: Json.compactItems items
termination_by structural items => items

def Json.compactMembers : List (String × Json) → List (String × Json)
  | [] => []
  | (key, json) :: members =>
    match json.compact.bare? with
    | none => Json.compactMembers members
    | some kept => (key, kept) :: Json.compactMembers members
termination_by structural members => members

end

mutual

/-- **A JSON value with floating-point numbers** in all floating-point leaves of a field. -/
def Json.widen : Field → Json → Json
  | field, .number value => .number (value.widen field)
  | field, .array items => .array (Json.widenItems field items)
  | field, .object members => .object (Json.widenMembers field.children members)
  | _, json => json
termination_by structural _ json => json

def Json.widenItems : Field → List Json → List Json
  | _, [] => []
  | field, item :: items => item.widen field :: Json.widenItems field items
termination_by structural _ items => items

/-- Each member has the numbers of the field that it names. -/
def Json.widenMembers : List Field → List (String × Json) → List (String × Json)
  | _, [] => []
  | children, (key, json) :: members =>
    (key, match children.find? (·.label.name == key) with
      | some child => json.widen child
      | none => json) :: Json.widenMembers children members
termination_by structural _ members => members

end

/-- **The normal form** of a JSON value that stands for a record. -/
def Schema.normalForm (schema : Schema) (json : Json) : Json :=
  (json.widen schema.root.field).compact

/-! ### Instances -/

/-- The member that stands for the given values. -/
def Json.ofInstances? : List Json → Option Json
  | [] => none
  | [single] => some single
  | several => some (.array several)

namespace Json

/-- What is kept of a member depends on its instances only. -/
theorem bare?_eq (json : Json) : json.bare? = ofInstances? json.instances := by
  cases json with
  | array items =>
    cases items with
    | nil => rfl
    | cons first rest => cases rest <;> rfl
  | null | boolean | number | string | object => rfl

theorem compactItems_eq_map : ∀ items : List Json, compactItems items = items.map compact
  | [] => rfl
  | item :: items => by rw [compactItems, compactItems_eq_map items, List.map_cons]

theorem widenItems_eq_map (field : Field) :
    ∀ items : List Json, widenItems field items = items.map (widen field)
  | [] => rfl
  | item :: items => by rw [widenItems, widenItems_eq_map field items, List.map_cons]

theorem instances_compact (json : Json) : json.compact.instances = json.instances.map compact := by
  cases json with
  | array items =>
    rw [compact]
    exact compactItems_eq_map items
  | null | boolean | number | string | object => rfl

theorem instances_widen (field : Field) (json : Json) :
    (json.widen field).instances = json.instances.map (widen field) := by
  cases json with
  | array items =>
    rw [widen]
    exact widenItems_eq_map field items
  | null | boolean | number | string | object => rfl

/-- The field of a member, or any other if there is none, decides about its numbers. -/
def widenMember (children : List Field) (member : String × Json) : Json :=
  match children.find? (·.label.name == member.1) with
  | some child => member.2.widen child
  | none => member.2

/-- A member that names a field has the numbers of a field of this name. -/
theorem exists_widenMember {children : List Field} {member : String × Json}
    (known : ∃ child ∈ children, child.label.name = member.1) :
    ∃ child ∈ children, child.label.name = member.1 ∧
      widenMember children member = member.2.widen child := by
  unfold widenMember
  cases found : children.find? (·.label.name == member.1) with
  | none =>
    obtain ⟨child, listed, same⟩ := known
    exact absurd same (by simpa using List.find?_eq_none.mp found child listed)
  | some child =>
    exact ⟨child, List.mem_of_find?_eq_some found, by simpa using List.find?_some found, rfl⟩

theorem widenMembers_eq_map (children : List Field) : ∀ members : List (String × Json),
    widenMembers children members =
      members.map fun member => (member.1, widenMember children member)
  | [] => rfl
  | member :: members => by
    rw [widenMembers, widenMembers_eq_map children members, List.map_cons]
    rfl

theorem compactMembers_eq_filterMap : ∀ members : List (String × Json),
    compactMembers members = members.filterMap fun member =>
      (ofInstances? member.2.compact.instances).map (member.1, ·)
  | [] => rfl
  | (key, json) :: members => by
    rw [compactMembers, compactMembers_eq_filterMap members, bare?_eq]
    cases kept : ofInstances? json.compact.instances with
    | none => rw [List.filterMap_cons_none (by rw [kept]; rfl)]
    | some single => rw [List.filterMap_cons_some (by rw [kept]; rfl)]

end Json

/-! ### Writing -/

theorem Value.listToJson_eq_map : ∀ values : List Value, listToJson values = values.map Value.toJson
  | [] => rfl
  | value :: values => by rw [listToJson, listToJson_eq_map values, List.map_cons]

/-- An entry is written as the member that stands for the JSON of its values. -/
theorem Record.jsonMembers_eq_filterMap : ∀ entries : List (String × List Value),
    jsonMembers entries = entries.filterMap fun entry =>
      (Json.ofInstances? (entry.2.map Value.toJson)).map (entry.1, ·)
  | [] => rfl
  | (name, values) :: entries => by
    rw [jsonMembers, jsonMembers_eq_filterMap entries, Value.listToJson_eq_map]
    cases values with
    | nil => rfl
    | cons first rest => cases rest <;> rfl

/-- So is each member of an object that is read. -/
theorem Record.jsonMembers_ofMembers {members : List (String × Json)}
    {values : String × Json → List Value} :
    jsonMembers (ofMembers members values).entries = members.filterMap fun member =>
      (Json.ofInstances? ((values member).map Value.toJson)).map (member.1, ·) := by
  rw [jsonMembers_eq_filterMap]
  unfold ofMembers
  dsimp only
  rw [List.filterMap_filter, List.filterMap_map]
  refine List.filterMap_congr fun member _ => ?_
  cases held : values member <;> simp [held, Json.ofInstances?]

/-- A number of 64 bits has a finite number nearest to it. -/
theorem JsonNumber.IsStored.isFinite_toFloat {value : JsonNumber} (stored : value.IsStored) :
    value.toFloat.isFinite = true := by
  cases value with
  | float value => exact stored
  | integer value =>
    have least : Int64.minValue.toInt = -2 ^ 63 := rfl
    have bound : (UInt64.size : Int) = 2 ^ 64 := rfl
    obtain ⟨low, high⟩ := stored
    rw [least] at low
    rw [bound] at high
    exact Binary64.isFinite_ofInt (by omega)

/-- An integer that is read is written as the same integer. -/
theorem Json.ofInt64_of_asInt64? {json : Json} {content : Int64} (read : json.asInt64? = some content) :
    json = .ofInt64 content := by
  unfold asInt64? at read
  split at read
  · next value =>
    split at read
    · next inside =>
      cases read
      rw [ofInt64, Int64.toInt_ofInt_of_le inside.1 (Int.lt_add_one_of_le inside.2)]
    · cases read
  · cases read

namespace Field

/-- A scalar is written as it was read, a floating-point number as one. -/
theorem toJson_of_ofJson? (label : Label) {type : ScalarType} {json : Json} {content : Scalar}
    (wellFormed : json.IsWellFormed) (read : type.ofJson? json = some content) :
    content.IsFinite ∧ content.toJson = (json.widen (.leaf label type)).compact := by
  cases type with
  | boolean =>
    cases json <;> cases read
    exact ⟨trivial, rfl⟩
  | int64 =>
    obtain ⟨value, taken, rfl⟩ := Option.map_eq_some_iff.mp read
    rw [Json.ofInt64_of_asInt64? taken]
    exact ⟨trivial, rfl⟩
  | float64 =>
    cases json with
    | number value =>
      cases wellFormed with
      | number stored =>
        have finite := stored.isFinite_toFloat
        obtain rfl : content = .float64 value.toFloat := by
          cases value <;> exact (Option.some.inj read).symm
        exact ⟨finite, Json.ofFloat64_of_isFinite finite⟩
    | null | boolean | string | array | object => cases read
  | string =>
    cases json <;> cases read
    exact ⟨trivial, rfl⟩

/-- **What was read is written as the normal form.** -/
theorem Reads.toJson_eq {field : Field} {json : Json} {value : Value}
    (reads : field.Reads json value) (wellFormed : json.IsWellFormed) :
    value.toJson = (json.widen field).compact := by
  induction reads with
  | scalar read => exact (toJson_of_ofJson? _ wellFormed read).2
  | @record label children members values sorted known repeated counts each ih =>
    cases wellFormed with
    | object _ below =>
      rw [Value.toJson, Record.toJson_eq, Record.jsonMembers_ofMembers, Json.widen, Json.compact,
        Json.widenMembers_eq_map, Json.compactMembers_eq_filterMap, List.filterMap_map]
      refine congrArg Json.object (List.filterMap_congr fun member among => ?_)
      have given : (values member).map Value.toJson =
          (Json.widenMember children member).compact.instances := by
        obtain ⟨child, listed, same, widened⟩ := Json.exists_widenMember (known member among)
        rw [widened, Json.instances_compact, Json.instances_widen, List.map_map, eq_comm,
          ← List.forall₂_eq_eq_eq, List.forall₂_map_left_iff, List.forall₂_map_right_iff]
        refine List.forall₂_iff_zip.mpr ⟨counts member among, fun {item value} paired => ?_⟩
        have stored := (below member among).of_mem_instances (List.of_mem_zip paired).1
        exact (ih member among child listed same item value paired stored).symm
      rw [given]
      rfl

/-! ### Reading again -/

/-- The names of a value that is read stand in order, and no entry is empty. -/
theorem Reads.isOrdered_and_pruned_eq {field : Field} {json : Json} {value : Value}
    (reads : field.Reads json value) : value.IsOrdered ∧ value.pruned = value := by
  induction reads with
  | scalar => exact ⟨.scalar _, rfl⟩
  | @record label children members values sorted known repeated counts _ ih =>
    have each : ∀ entry ∈ (Record.ofMembers members values).entries, ∀ value ∈ entry.2,
        value.IsOrdered ∧ value.pruned = value := by
      intro entry listed value held
      obtain ⟨member, among, child, named, same, item, paired⟩ :=
        exists_member_of_mem_entries known counts listed held
      exact ih member among child named same item value paired
    refine ⟨.record (Record.sorted_ofMembers sorted) fun entry listed value held =>
      (each entry listed value held).1, congrArg Value.record (Record.ext_entries ?_)⟩
    rw [Record.entries_pruned_eq, Record.fields_ofMembers]
    refine List.map_congr_left (fun entry listed => ?_) |>.trans (List.map_id _)
    refine Prod.ext rfl ?_
    exact List.map_congr_left (fun value held => (each entry listed value held).2) |>.trans
      (List.map_id _)

/-- The floating-point numbers of a value that is read are finite. -/
theorem Reads.isFinite {field : Field} {json : Json} {value : Value} (reads : field.Reads json value)
    (wellFormed : json.IsWellFormed) : value.EachScalar Scalar.IsFinite := by
  induction reads with
  | @scalar label _ _ _ read =>
    exact .scalar (toJson_of_ofJson? label wellFormed read).1
  | @record label children members values sorted known repeated counts _ ih =>
    cases wellFormed with
    | object _ below =>
      refine .record fun entry listed value held => ?_
      obtain ⟨member, among, child, named, same, item, paired⟩ :=
        exists_member_of_mem_entries known counts listed held
      exact ih member among child named same item value paired
        ((below member among).of_mem_instances (List.of_mem_zip paired).1)

/-- **A value that was read is read again** from what is written of it. -/
theorem Reads.valueOfItem_toJson {field : Field} {json : Json} {value : Value}
    (reads : field.Reads json value) (wellFormed : json.IsWellFormed) :
    field.valueOfItem value.toJson = .ok value := by
  obtain ⟨ordered, pruned⟩ := reads.isOrdered_and_pruned_eq
  have restores := restores_of_conforms reads.conforms ordered (reads.isFinite wellFormed)
  rw [restores.read, pruned]

end Field

/-! ### A sample object -/

namespace Sample

theorem stationType_isAccepted : stationType.IsAccepted :=
  ⟨ [ { name := "Station", parent := none, cardinality := .required, type := none },
      { name := "Id", parent := some 0, cardinality := .required, type := some .int64 },
      { name := "Series", parent := some 0, cardinality := .repeated, type := none },
      { name := "Closed", parent := some 2, cardinality := .optional, type := some .boolean },
      { name := "Values", parent := some 2, cardinality := .repeated, type := some .float64 } ], rfl⟩

/-- A station without its number, with two series, as it may be written. -/
def looseStation : Json :=
  .object
    [ ("Id", .null),
      ("Series", .array
        [ .object [("Values", .array [.number (.integer 1)])],
          .object [("Closed", .null), ("Values", .array [])] ]) ]

theorem isWellFormed_looseStation : looseStation.IsWellFormed := by
  have one : (Json.array [.number (.integer 1)]).IsWellFormed :=
    .array (List.forall_mem_singleton.mpr (.number (by unfold JsonNumber.IsStored; decide)))
  have first : (Json.object [("Values", .array [.number (.integer 1)])]).IsWellFormed :=
    .object (List.pairwise_singleton _ _) (List.forall_mem_singleton.mpr one)
  have second : (Json.object [("Closed", .null), ("Values", .array [])]).IsWellFormed :=
    .object (List.pairwise_pair.mpr (by decide))
      (List.forall_mem_cons.mpr ⟨.null, List.forall_mem_singleton.mpr (.array (List.forall_mem_nil _))⟩)
  have series := Json.IsWellFormed.array
    (List.forall_mem_cons.mpr ⟨first, List.forall_mem_singleton.mpr second⟩)
  exact .object (List.pairwise_pair.mpr (by decide))
    (List.forall_mem_cons.mpr ⟨.null, List.forall_mem_singleton.mpr series⟩)

/-- The record of this station. -/
def looseStationRecord : Record :=
  record [("Series", [group [("Values", [.scalar (.float64 (.ofInt 1))])], group []])]

end Sample

namespace Schema

/-- **The JSON of a record that was read is the normal form** of what it was read from: at every object
level without `null` and empty arrays, an array of one item replaced by the item, and each number of a
floating-point field by the floating-point number. This normal form is read as a record that callers
see as equal; in fact it is the same. -/
theorem recordOfJson_normalForm {schema : Schema} {json : Json} {record : Record}
    (accepted : schema.IsAccepted) (wellFormed : json.IsWellFormed)
    (read : schema.recordOfJson json = .ok record) :
    record.toJson = schema.normalForm json ∧
      schema.recordOfJson (schema.normalForm json) = .ok record ∧ record.isEqual record = true := by
  have reads := reads_of_recordOfJson accepted wellFormed read
  have written : record.toJson = schema.normalForm json := reads.toJson_eq wellFormed
  obtain ⟨_, pruned⟩ := reads.isOrdered_and_pruned_eq
  refine ⟨written, ?_, ?_⟩
  · have again := Field.valueOfItem_eq_ok.mp (reads.valueOfItem_toJson wellFormed)
    obtain ⟨members, _, object, taken, ⟨⟩⟩ := again
    rw [← written, ← taken]
    exact congrArg schema.recordOfJson object
  · have equal := Record.isEqual_pruned (reads.isFinite wellFormed)
    rwa [Value.record.inj pruned] at equal

/-- A station is read with `null`, an empty array, arrays of one item and an integer among its
floating-point numbers. -/
theorem recordOfJson_looseStation :
    Sample.stationType.IsAccepted ∧ Sample.looseStation.IsWellFormed ∧
      Sample.stationType.recordOfJson Sample.looseStation = .ok Sample.looseStationRecord ∧
      Sample.looseStationRecord.toJson = Sample.stationType.normalForm Sample.looseStation ∧
      Sample.stationType.recordOfJson (Sample.stationType.normalForm Sample.looseStation) =
        .ok Sample.looseStationRecord ∧
      Sample.looseStationRecord.isEqual Sample.looseStationRecord = true :=
  have read : Sample.stationType.recordOfJson Sample.looseStation = .ok Sample.looseStationRecord := rfl
  ⟨Sample.stationType_isAccepted, Sample.isWellFormed_looseStation, read,
    recordOfJson_normalForm Sample.stationType_isAccepted Sample.isWellFormed_looseStation read⟩

example : Sample.stationType.normalForm Sample.looseStation =
    .object
      [ ("Series", .array
          [ .object [("Values", .number (.float (.ofInt 1)))],
            .object [] ]) ] := rfl

end Schema

end NestedColumns
