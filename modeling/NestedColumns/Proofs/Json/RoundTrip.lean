/-
Reading back the JSON of a record.

Writing does not look at the schema: a single value is written bare and several are written as an
array. Reading looks at the cardinality of the field. Both agree on a value that conforms, because the
JSON of one value is never `null` and never an array (`Field.Restores`), so a bare member stands for
one value whatever the cardinality is, and an array is only written where several values are.

* `Scalar.ofJson?_toJson` — a finite scalar is read back by its own type.
* `Field.valuesOfJson_memberJson` — so is the member of a field, if each of its values is.
* `Field.recordOfMembers_jsonMembers` — members in ascending order of their names are read one after
  the other to the end of the record.
* `Schema.recordOfJson_toJson` — **reading undoes writing**, for every record without unknown names,
  values of another kind, several values where one is the most, or numbers that are not finite.
-/

import NestedColumns.Json.Record
import NestedColumns.Proofs.Record.Equality
import NestedColumns.Proofs.Striping.Conformity

namespace NestedColumns

/-- So many values are not too many for a field: only a repeated one may have several. A required
field may be without one. -/
def Cardinality.HasRoomFor (cardinality : Cardinality) (count : Nat) : Prop :=
  cardinality.isRepeated = true ∨ count ≤ 1

instance (cardinality : Cardinality) (count : Nat) : Decidable (cardinality.HasRoomFor count) :=
  inferInstanceAs (Decidable (_ ∨ _))

/-! ### Scalars -/

theorem Json.asInt64?_ofInt64 (value : Int64) : (Json.ofInt64 value).asInt64? = some value := by
  have inside : Int64.minValue.toInt ≤ value.toInt ∧ value.toInt ≤ Int64.maxValue.toInt :=
    ⟨Int64.minValue_le_toInt value, Int64.toInt_le value⟩
  rw [ofInt64, asInt64?, if_pos inside, Int64.ofInt_toInt]

theorem Json.ofFloat64_of_isFinite {value : Binary64} (finite : value.isFinite = true) :
    Json.ofFloat64 value = .number (.float value) :=
  if_pos finite

/-- A scalar is read back by its own type. -/
theorem Scalar.ofJson?_toJson {content : Scalar} (finite : content.IsFinite) :
    content.type.ofJson? content.toJson = some content := by
  cases content with
  | boolean value => rfl
  | int64 value =>
    rw [type, toJson, ScalarType.ofJson?, Json.asInt64?_ofInt64]
    rfl
  | float64 value =>
    rw [type, toJson, ScalarType.ofJson?, Json.ofFloat64_of_isFinite finite]
    rfl
  | string value => rfl

/-- Neither an array, which stands for any number of values, nor `null`, which stands for none. -/
def Json.IsSingle : Json → Prop
  | .null | .array _ => False
  | _ => True

theorem ScalarType.isSingle_of_ofJson? {type : ScalarType} {json : Json} {content : Scalar}
    (read : type.ofJson? json = some content) : json.IsSingle := by
  cases json with
  | null | array => cases type <;> cases read
  | _ => trivial

/-- A leaf reads what its type reads. -/
theorem Field.valueOfItem_leaf {label : Label} {type : ScalarType} {json : Json} {content : Scalar}
    (read : type.ofJson? json = some content) :
    (Field.leaf label type).valueOfItem json = .ok (.scalar content) := by
  cases json with
  | object members => cases type <;> cases read
  | null | boolean | number | string | array =>
    unfold valueOfItem valueOfPlain
    dsimp only
    rw [read]

/-! ### Members -/

/-- The JSON of the values of a field: a single value is bare. -/
def Value.memberJson (values : List Value) : Json :=
  match Value.listToJson values with
  | [single] => single
  | several => .array several

/-- An entry without values is not written. -/
theorem Record.jsonMembers_nil (name : String) (rest : List (String × List Value)) :
    jsonMembers ((name, []) :: rest) = jsonMembers rest := rfl

/-- An entry with values is written as one member. -/
theorem Record.jsonMembers_cons (name : String) (value : Value) (values : List Value)
    (rest : List (String × List Value)) :
    jsonMembers ((name, value :: values) :: rest) =
      (name, Value.memberJson (value :: values)) :: jsonMembers rest := by
  cases values <;> rfl

theorem Record.toJson_eq (record : Record) :
    record.toJson = .object (jsonMembers record.entries) := by
  cases record
  rfl

namespace Field

/-- **A field reads a value back from its JSON**, which stands for a single value. Entries of the
value that hold nothing are lost. -/
structure Restores (field : Field) (value : Value) : Prop where
  single : value.toJson.IsSingle
  read : field.valueOfItem value.toJson = .ok value.pruned

theorem valuesOfJson_of_isSingle (field : Field) {json : Json} (single : json.IsSingle) :
    field.valuesOfJson json = (field.valueOfItem json).map fun value => [value] := by
  cases json with
  | null | array => exact single.elim
  | boolean | number | string => rfl
  | object members =>
    cases field with
    | leaf label type => rfl
    | group label children =>
      rw [valuesOfJson, valueOfItem]
      cases recordOfMembers children members .empty <;> rfl

/-- The items of an array are read back one by one. -/
theorem valuesOfItems_listToJson {field : Field} : ∀ {values : List Value},
    (∀ value ∈ values, field.Restores value) →
      field.valuesOfItems (Value.listToJson values) = .ok (Value.prunedList values)
  | [], _ => rfl
  | value :: values, restores => by
    rw [List.forall_mem_cons] at restores
    rw [Value.listToJson, valuesOfItems, restores.1.read, valuesOfItems_listToJson restores.2]
    rfl

/-- **The values of a field are read back from its member.** One value is bare, so the cardinality is
not asked for; several make an array, which the field takes because it is repeated. -/
theorem valuesOfJson_memberJson {field : Field} {value : Value} {values : List Value}
    (room : field.label.cardinality.HasRoomFor (value :: values).length)
    (restores : ∀ each ∈ value :: values, field.Restores each) :
    field.valuesOfJson (Value.memberJson (value :: values)) =
      .ok (Value.prunedList (value :: values)) := by
  cases values with
  | nil =>
    have first := restores value List.mem_cons_self
    have bare : Value.memberJson [value] = value.toJson := rfl
    rw [bare, valuesOfJson_of_isSingle field first.single, first.read]
    rfl
  | cons next more =>
    have array : Value.memberJson (value :: next :: more) =
      .array (Value.listToJson (value :: next :: more)) := rfl
    have repeated : field.label.cardinality.isRepeated = true :=
      room.resolve_right (by simp)
    rw [array, valuesOfJson, if_pos repeated, valuesOfItems_listToJson restores]

end Field

/-! ### Records -/

/-- A name after all others is put at the end. -/
theorem Entries.change_of_forall_lt {α : Type} {name : String} {update : Option α → α}
    {entries : Entries α} (less : ∀ entry ∈ entries, entry.1 < name) :
    Entries.change name update entries = entries ++ [(name, update none)] := by
  induction entries with
  | nil => rfl
  | cons first rest ih =>
    rw [List.forall_mem_cons] at less
    have differs : name ≠ first.1 := (String.ne_of_lt less.1).symm
    have after : ¬ name < first.1 := fun more => String.lt_irrefl _ (String.lt_trans less.1 more)
    rw [Entries.change, if_neg differs, if_neg after, ih less.2, List.cons_append]

theorem Record.append_of_forall_lt {name : String} {values : List Value}
    {before : List (String × List Value)} (less : ∀ entry ∈ before, entry.1 < name)
    (some : values ≠ []) :
    (Record.mk before).append name values = ⟨before ++ [(name, values)]⟩ := by
  unfold Record.append
  rw [if_neg (mt List.isEmpty_iff.mp some), Record.change, Entries.change_of_forall_lt less]
  rfl

namespace Field

/-- A name that holds values is that of a field, which has room for them and reads them back. -/
structure RestoresEntry (fields : List Field) (entry : String × List Value) (field : Field) :
    Prop where
  named : fields.find? (·.label.name == entry.1) = some field
  room : field.label.cardinality.HasRoomFor entry.2.length
  restores : ∀ value ∈ entry.2, field.Restores value

/-- **Members are read back in order.** The invariant of the recursion is that the names read so far
lie before those to come, so that each entry is put behind the last. -/
theorem recordOfMembers_jsonMembers {fields : List Field} :
    ∀ {entries before : List (String × List Value)}, Entries.IsOrdered entries →
      (∀ entry ∈ entries, entry.2 ≠ [] → ∃ field, RestoresEntry fields entry field) →
      (∀ earlier ∈ before, ∀ entry ∈ entries, earlier.1 < entry.1) →
      recordOfMembers fields (Record.jsonMembers entries) ⟨before⟩ =
        .ok ⟨before ++ Record.prunedEntries entries⟩
  | [], before, _, _, _ => by
    rw [Record.jsonMembers, recordOfMembers, Record.prunedEntries, List.append_nil]
  | (name, []) :: rest, before, ordered, restores, less => by
    rw [List.forall_mem_cons] at restores
    rw [Record.jsonMembers_nil, Record.prunedEntries]
    exact recordOfMembers_jsonMembers (List.pairwise_cons.mp ordered).2 restores.2
      fun earlier member entry later => less earlier member entry (List.mem_cons_of_mem _ later)
  | (name, value :: values) :: rest, before, ordered, restores, less => by
    obtain ⟨above, restOrdered⟩ := List.pairwise_cons.mp ordered
    rw [List.forall_mem_cons] at restores
    obtain ⟨field, named, room, each⟩ := restores.1 (List.cons_ne_nil value values)
    have behind : ∀ earlier ∈ before, earlier.1 < name :=
      fun earlier member => less earlier member _ List.mem_cons_self
    have further : ∀ earlier ∈ before ++ [(name, Value.prunedList (value :: values))],
        ∀ entry ∈ rest, earlier.1 < entry.1 := by
      intro earlier member entry later
      rcases List.mem_append.mp member with old | new
      · exact less earlier old entry (List.mem_cons_of_mem _ later)
      · rw [List.mem_singleton.mp new]
        exact above entry later
    have pruned : Value.prunedList (value :: values) ≠ [] := List.cons_ne_nil _ _
    rw [Record.jsonMembers_cons, recordOfMembers, named]
    dsimp only
    rw [valuesOfJson_memberJson room each]
    refine Eq.trans (congrArg (recordOfMembers fields (Record.jsonMembers rest))
      (Record.append_of_forall_lt behind pruned)) ?_
    rw [recordOfMembers_jsonMembers restOrdered restores.2 further, List.append_assoc]
    rfl

section Fields

variable {fields : List Field} {record : Record} (sorted : record.Sorted)
  (known : ∀ entry ∈ record.fields, ∃ child ∈ fields, child.label.name = entry.1)
  (counts : ∀ child ∈ fields,
    child.label.cardinality.HasRoomFor (record.getAll child.label.name).length)
  (restores : ∀ child ∈ fields, ∀ value ∈ record.getAll child.label.name, child.Restores value)

include sorted known counts restores

/-- Every name with values finds a field. Should several fields have the name, then each of them takes
the values, so also the one that is found. -/
theorem exists_restoresEntry {entry : String × List Value} (member : entry ∈ record.entries)
    (some : entry.2 ≠ []) : ∃ field, RestoresEntry fields entry field := by
  have held : entry ∈ record.fields := List.mem_filter.mpr ⟨member, by simpa using some⟩
  obtain ⟨child, among, childNamed⟩ := known entry held
  have isSome : (fields.find? (·.label.name == entry.1)).isSome = true :=
    List.find?_isSome.mpr ⟨child, among, by simpa using childNamed⟩
  obtain ⟨field, found⟩ := Option.isSome_iff_exists.mp isSome
  have listed := List.mem_of_find?_eq_some found
  have named : field.label.name = entry.1 := by simpa using List.find?_some found
  have values : record.getAll field.label.name = entry.2 := by
    rw [named, Record.getAll, sorted.lookup_eq member]
    rfl
  refine ⟨field, found, ?_, ?_⟩
  · rw [← values]
    exact counts field listed
  · rw [← values]
    exact restores field listed

/-- **A record is read back** by fields that know its names, have room for its values and read back
each of them. -/
theorem recordOfMembers_toJson :
    recordOfMembers fields (Record.jsonMembers record.entries) .empty = .ok record.pruned := by
  have each : ∀ entry ∈ record.entries, entry.2 ≠ [] → ∃ field, RestoresEntry fields entry field :=
    fun _ => exists_restoresEntry sorted known counts restores
  have apart : ∀ earlier ∈ ([] : List (String × List Value)), ∀ entry ∈ record.entries,
      earlier.1 < entry.1 := fun _ none => absurd none List.not_mem_nil
  have read := recordOfMembers_jsonMembers sorted each apart
  cases record
  exact read

end Fields

/-- **Every value that conforms is read back**, by induction on its conformity. -/
theorem restores_of_conforms {field : Field} {value : Value}
    (conforms : value.Conforms Cardinality.HasRoomFor field) (ordered : value.IsOrdered)
    (finite : value.EachScalar Scalar.IsFinite) : field.Restores value := by
  induction conforms with
  | @scalar label type content typed =>
    cases finite with
    | scalar finite =>
      have read := Scalar.ofJson?_toJson finite
      rw [typed] at read
      exact ⟨ScalarType.isSingle_of_ofJson? read, valueOfItem_leaf read⟩
  | record known counts _ ih =>
    have ordered : Record.IsOrdered _ := ordered
    have read := recordOfMembers_toJson ordered.sorted known counts fun child member value among =>
      ih child member value among (ordered.of_mem_getAll among)
        (Record.eachScalar_of_mem_getAll finite among)
    refine ⟨?_, ?_⟩ <;> rw [Value.toJson, Record.toJson_eq]
    · trivial
    · rw [valueOfItem, read]
      rfl

end Field

/-! ### A sample with floating-point numbers -/

namespace Sample

/-- A series of numbers. -/
def seriesField : Field :=
  .group ⟨2, "Series", .repeated⟩
    [ .leaf ⟨3, "Closed", .optional⟩ .boolean,
      .leaf ⟨4, "Values", .repeated⟩ .float64 ]

/-- Measurements in several series. -/
def stationType : Schema where
  name := "Station"
  fields := [.leaf ⟨1, "Id", .required⟩ .int64, seriesField]

/-- Negative zero as a value. -/
def negativeZero : Value :=
  .scalar (.float64 (.ofMagnitude true 0))

/-- A station without its number, with one series of one value and one of none. -/
def namelessStation : Record :=
  record [("Series", [group [("Values", [negativeZero])], group []])]

theorem isOrdered_namelessStation : namelessStation.IsOrdered := by
  refine isOrdered_group ?_
  simp [isOrdered_group, negativeZero, Value.IsOrdered.scalar]

theorem isFinite_namelessStation : (Value.record namelessStation).EachScalar Scalar.IsFinite := by
  have zero : negativeZero.EachScalar Scalar.IsFinite := .scalar (by unfold Scalar.IsFinite; decide)
  have one : (group [("Values", [negativeZero])]).EachScalar Scalar.IsFinite :=
    .record (List.forall_mem_singleton.mpr (List.forall_mem_singleton.mpr zero))
  have none : (group []).EachScalar Scalar.IsFinite := .record (List.forall_mem_nil _)
  refine .record (List.forall_mem_singleton.mpr ?_)
  exact List.forall_mem_cons.mpr ⟨one, List.forall_mem_singleton.mpr none⟩

theorem conforms_namelessStation :
    (Value.record namelessStation).Conforms Cardinality.HasRoomFor stationType.root.field := by
  have zero : negativeZero.Conforms Cardinality.HasRoomFor
      (.leaf ⟨4, "Values", .repeated⟩ .float64) := .scalar rfl
  have one : (group [("Values", [negativeZero])]).Conforms Cardinality.HasRoomFor seriesField := by
    refine .record (by decide) (by decide) (List.forall_mem_cons.mpr ⟨List.forall_mem_nil _, ?_⟩)
    exact List.forall_mem_singleton.mpr (List.forall_mem_singleton.mpr zero)
  have none : (group []).Conforms Cardinality.HasRoomFor seriesField := by
    refine .record (by decide) (by decide) (List.forall_mem_cons.mpr ⟨List.forall_mem_nil _, ?_⟩)
    exact List.forall_mem_singleton.mpr (List.forall_mem_nil _)
  refine .record (by decide) (by decide) (List.forall_mem_cons.mpr ⟨List.forall_mem_nil _, ?_⟩)
  refine List.forall_mem_singleton.mpr ?_
  exact List.forall_mem_cons.mpr ⟨one, List.forall_mem_singleton.mpr none⟩

end Sample

namespace Schema

/-- **Reading undoes writing.** A record in which every name that holds values is that of a field, each
value is of the kind of its field, only repeated fields have several values and numbers are finite, is
read back from its JSON, but for the entries that hold no value: the record that is read has the same
scalars bit by bit, and callers see it as equal. -/
theorem recordOfJson_toJson {schema : Schema} {record : Record} (ordered : record.IsOrdered)
    (conforms : (Value.record record).Conforms Cardinality.HasRoomFor schema.root.field)
    (finite : (Value.record record).EachScalar Scalar.IsFinite) :
    schema.recordOfJson record.toJson = .ok record.pruned ∧ record.pruned.isEqual record = true := by
  refine ⟨?_, Record.isEqual_pruned finite⟩
  cases conforms with
  | record known counts each =>
    have read := Field.recordOfMembers_toJson ordered.sorted known counts
      fun child member value among => Field.restores_of_conforms (each child member value among)
        (ordered.of_mem_getAll among) (Record.eachScalar_of_mem_getAll finite among)
    rw [Record.toJson_eq]
    exact read

/-- A repeated field with one value, an instance without fields and a missing number are read back. -/
theorem recordOfJson_namelessStation :
    Sample.namelessStation.IsOrdered ∧
      (Value.record Sample.namelessStation).Conforms Cardinality.HasRoomFor
        Sample.stationType.root.field ∧
      (Value.record Sample.namelessStation).EachScalar Scalar.IsFinite ∧
      Sample.stationType.recordOfJson Sample.namelessStation.toJson =
        .ok Sample.namelessStation.pruned ∧
      Sample.namelessStation.pruned.isEqual Sample.namelessStation = true :=
  ⟨Sample.isOrdered_namelessStation, Sample.conforms_namelessStation, Sample.isFinite_namelessStation,
    recordOfJson_toJson Sample.isOrdered_namelessStation Sample.conforms_namelessStation
      Sample.isFinite_namelessStation⟩

end Schema

end NestedColumns
