/-
What reading a record from a JSON object does.

`Field.Reads` says which value a JSON value stands for, without any thought of order or faults: a
scalar is what its type takes, and an object is the record that has, under the key of each member, a
value for each JSON value that the member gives (`Json.instances`). `null` gives none, an array its
items, anything else itself.

* `Json.isWellFormed_of_ofText?` — the JSON values that are read from texts have numbers of 64 bits and
  objects with their keys in order; the statements on reading records are about such values.
* `Field.reads_of_valueOfItem` — **what is read is what the JSON value stands for**; so it is for whole
  records (`Schema.reads_of_recordOfJson`).
* `Field.Reads.conforms` — a value that is read has no names, kinds, types or numbers of values that
  its field does not have, whatever required fields it lacks.
-/

import NestedColumns.Json.Source
import NestedColumns.Proofs.Json.RoundTrip
import NestedColumns.Proofs.Schema.Accepted

namespace NestedColumns

/-! ### JSON values as readers make them -/

/-- A number of 64 bits: an integer with or without sign, or a finite floating-point number. -/
def JsonNumber.IsStored : JsonNumber → Prop
  | .integer value => Int64.minValue.toInt ≤ value ∧ value < UInt64.size
  | .float value => value.isFinite = true

/-- **A JSON value as readers of JSON make it**: the numbers have 64 bits, and the keys of every
object stand in ascending order, so that each occurs once. -/
inductive Json.IsWellFormed : Json → Prop
  | null : IsWellFormed .null
  | boolean (value : Bool) : IsWellFormed (.boolean value)
  | number {value : JsonNumber} (stored : value.IsStored) : IsWellFormed (.number value)
  | string (value : String) : IsWellFormed (.string value)
  | array {items : List Json} (each : ∀ item ∈ items, item.IsWellFormed) : IsWellFormed (.array items)
  | object {members : List (String × Json)} (sorted : Entries.IsOrdered members)
      (each : ∀ member ∈ members, member.2.IsWellFormed) : IsWellFormed (.object members)

namespace Json.Source

/-- A number that is read has 64 bits. -/
theorem isStored_of_number? {numeral : Numeral} {value : JsonNumber}
    (read : number? numeral = some value) : value.IsStored := by
  unfold number? at read
  split at read
  · next whole integral =>
    obtain rfl := Option.some.inj read
    have least : Int64.minValue.toInt = -9223372036854775808 := rfl
    have bound : UInt64.size = 18446744073709551616 := rfl
    unfold integer? at integral
    unfold JsonNumber.IsStored
    split at integral
    · dsimp only at integral
      split at integral
      all_goals
        split at integral
        · next inside =>
          obtain rfl := Option.some.inj integral
          omega
        · cases integral
    · cases integral
  · obtain ⟨nearest, rounded, rfl⟩ := Option.map_eq_some_iff.mp read
    unfold float? at rounded
    dsimp only at rounded
    split at rounded
    · next finite => exact Option.some.inj rounded ▸ finite
    · cases rounded

mutual

/-- The meaning of a source is well formed. -/
theorem isWellFormed_of_meaning? {room : Nat} : ∀ {source : Source} {json : Json},
    meaning? room source = some json → json.IsWellFormed
  | .null, json, read => by
    cases read
    exact .null
  | .boolean value, json, read => by
    cases read
    exact .boolean value
  | .number numeral, json, read => by
    obtain ⟨value, known, rfl⟩ := Option.map_eq_some_iff.mp read
    exact .number (isStored_of_number? known)
  | .string pieces, json, read => by
    obtain ⟨value, _, rfl⟩ := Option.map_eq_some_iff.mp read
    exact .string value
  | .array items, json, read => by
    rw [meaning?] at read
    split at read
    · cases read
    · obtain ⟨jsons, known, rfl⟩ := Option.map_eq_some_iff.mp read
      exact .array (isWellFormed_of_itemMeanings? known)
  | .object members, json, read => by
    rw [meaning?] at read
    split at read
    · cases read
    · obtain ⟨made, known, rfl⟩ := Option.map_eq_some_iff.mp read
      obtain ⟨sorted, each⟩ := isWellFormed_of_memberMeanings? .nil (List.forall_mem_nil _) known
      exact .object sorted each

theorem isWellFormed_of_itemMeanings? {room : Nat} : ∀ {items : List Source} {jsons : List Json},
    itemMeanings? room items = some jsons → ∀ json ∈ jsons, json.IsWellFormed
  | [], jsons, read => by
    cases read
    exact List.forall_mem_nil _
  | item :: items, jsons, read => by
    rw [itemMeanings?] at read
    obtain ⟨first, known, later⟩ := Option.bind_eq_some_iff.mp read
    obtain ⟨rest, known', made⟩ := Option.bind_eq_some_iff.mp later
    obtain rfl := Option.some.inj made
    exact List.forall_mem_cons.mpr
      ⟨isWellFormed_of_meaning? known, isWellFormed_of_itemMeanings? known'⟩

/-- Members are put to those that are known already, which stay in order. -/
theorem isWellFormed_of_memberMeanings? {room : Nat} : ∀ {members : List (List Piece × Source)}
    {known made : Entries Json}, known.IsOrdered → (∀ member ∈ known, member.2.IsWellFormed) →
      memberMeanings? room known members = some made →
        made.IsOrdered ∧ ∀ member ∈ made, member.2.IsWellFormed
  | [], known, made, sorted, each, read => by
    cases read
    exact ⟨sorted, each⟩
  | (key, source) :: members, known, made, sorted, each, read => by
    rw [memberMeanings?] at read
    obtain ⟨name, _, later⟩ := Option.bind_eq_some_iff.mp read
    obtain ⟨value, meant, last⟩ := Option.bind_eq_some_iff.mp later
    refine isWellFormed_of_memberMeanings? (Entries.isOrdered_change sorted) ?_ last
    intro member among
    rcases Entries.mem_put among with rfl | old
    · exact isWellFormed_of_meaning? meant
    · exact each member old

end

end Json.Source

/-- **A JSON value that is read from a text is well formed.** -/
theorem Json.isWellFormed_of_ofText? {text : String} {json : Json}
    (read : Json.ofText? text = some json) : json.IsWellFormed := by
  obtain ⟨source, _, meant⟩ := Option.bind_eq_some_iff.mp read
  exact Source.isWellFormed_of_meaning? meant

/-- The values that a member of an object gives to its field. -/
def Json.instances : Json → List Json
  | .null => []
  | .array items => items
  | json => [json]

theorem Json.instances_of_isSingle {json : Json} (single : json.IsSingle) :
    json.instances = [json] := by
  cases json with
  | null | array => exact single.elim
  | boolean | number | string | object => rfl

theorem Json.IsWellFormed.of_mem_instances {json item : Json} (wellFormed : json.IsWellFormed)
    (among : item ∈ json.instances) : item.IsWellFormed := by
  cases wellFormed with
  | null => exact absurd among List.not_mem_nil
  | array each => exact each item among
  | boolean | number | string | object =>
    rw [List.mem_singleton.mp among]
    constructor <;> assumption

theorem Json.sizeOf_le_of_mem_instances {json item : Json} (among : item ∈ json.instances) :
    sizeOf item ≤ sizeOf json := by
  cases json with
  | null => exact absurd among List.not_mem_nil
  | array items =>
    have within : sizeOf item < sizeOf items := List.sizeOf_lt_of_mem among
    simp only [Json.array.sizeOf_spec]
    omega
  | boolean | number | string | object => rw [List.mem_singleton.mp among]

/-- Induction over JSON values: what is shown of an object may be known of every value that one of
its members gives. -/
theorem Json.inductionOn {motive : Json → Prop} (json : Json)
    (plain : ∀ json, (∀ members, json ≠ .object members) → motive json)
    (object : ∀ members, (∀ member ∈ members, ∀ item ∈ member.2.instances, motive item) →
      motive (.object members)) : motive json :=
  match json with
  | .object members => object members fun _ _ item _ => item.inductionOn plain object
  | .null | .boolean _ | .number _ | .string _ | .array _ => plain _ (by rintro members ⟨⟩)
termination_by sizeOf json
decreasing_by
  rename_i member among inside
  have within := List.sizeOf_lt_of_mem among
  have below := Json.sizeOf_le_of_mem_instances inside
  obtain ⟨key, json⟩ := member
  simp only [Prod.mk.sizeOf_spec] at within
  simp only [Json.object.sizeOf_spec]
  dsimp only at below
  omega

/-! ### Steps of reading -/

/-- A scalar that is read has the type that reads it. -/
theorem ScalarType.type_of_ofJson? {type : ScalarType} {json : Json} {content : Scalar}
    (read : type.ofJson? json = some content) : content.type = type := by
  cases type <;> obtain ⟨value, _, rfl⟩ := Option.map_eq_some_iff.mp read <;> rfl

namespace Field

/-- A member gives no more instances than there is room for, if only repeated fields take arrays. -/
theorem hasRoomFor_instances {field : Field} {json : Json}
    (repeated : ∀ items, json = .array items → field.label.cardinality.isRepeated = true) :
    field.label.cardinality.HasRoomFor json.instances.length := by
  cases json with
  | array items => exact .inl (repeated items rfl)
  | null => exact .inr (Nat.zero_le 1)
  | boolean | number | string | object => exact .inr (Nat.le_refl 1)

theorem valuesOfItems_eq_mapM (field : Field) :
    ∀ items : List Json, field.valuesOfItems items = items.mapM field.valueOfItem
  | [] => rfl
  | item :: items => by
    rw [valuesOfItems, List.mapM_cons, valuesOfItems_eq_mapM field items]

/-- A member is read if each of its instances is, and an array only by a repeated field. -/
theorem valuesOfJson_eq_ok {field : Field} {json : Json} {values : List Value} :
    field.valuesOfJson json = .ok values ↔
      List.Forall₂ (fun item value => field.valueOfItem item = .ok value) json.instances values ∧
        ∀ items, json = .array items → field.label.cardinality.isRepeated = true := by
  have single (one : json.IsSingle) : field.valuesOfJson json = .ok values ↔
      List.Forall₂ (fun item value => field.valueOfItem item = .ok value) json.instances values := by
    rw [valuesOfJson_of_isSingle field one, Json.instances_of_isSingle one,
      List.forall₂_cons_left_iff, map_eq_ok]
    simp [eq_comm]
  cases json with
  | null =>
    rw [valuesOfJson, Json.instances, List.forall₂_nil_left_iff, Except.ok.injEq]
    exact eq_comm.trans (and_iff_left (by rintro items ⟨⟩)).symm
  | array items =>
    rw [valuesOfJson, Json.instances, valuesOfItems_eq_mapM]
    by_cases repeated : field.label.cardinality.isRepeated = true
    · rw [if_pos repeated, mapM_eq_ok]
      simp [repeated]
    · rw [if_neg repeated]
      simp [repeated]
  | boolean | number | string | object =>
    rw [single trivial]
    exact (and_iff_left (by rintro items ⟨⟩)).symm

/-- A single value is read as a scalar by a leaf, and as a record by a group. -/
theorem valueOfItem_eq_ok {field : Field} {json : Json} {value : Value} :
    field.valueOfItem json = .ok value ↔ match field with
      | .leaf _ type => ∃ content, type.ofJson? json = some content ∧ value = .scalar content
      | .group _ children => ∃ members record, json = .object members ∧
          recordOfMembers children members .empty = .ok record ∧ value = .record record := by
  cases field with
  | leaf label type =>
    constructor
    · intro read
      cases json with
      | object members => cases read
      | null | boolean | number | string | array =>
        unfold valueOfItem valueOfPlain at read
        dsimp only at read
        split at read
        · next content found => exact ⟨content, found, (Except.ok.inj read).symm⟩
        · cases read
    · rintro ⟨content, found, rfl⟩
      exact valueOfItem_leaf found
  | group label children =>
    cases json with
    | object members =>
      rw [valueOfItem, map_eq_ok]
      constructor
      · rintro ⟨record, read, rfl⟩
        exact ⟨members, record, rfl, read, rfl⟩
      · rintro ⟨_, record, ⟨⟩, read, rfl⟩
        exact ⟨record, read, rfl⟩
    | null | boolean | number | string | array =>
      exact iff_of_false (by rintro ⟨⟩) (by rintro ⟨_, _, ⟨⟩, _⟩)

end Field

/-! ### The record of an object -/

/-- The record that has for each member of an object the given values. A member without values makes
no entry. -/
def Record.ofMembers (members : List (String × Json)) (values : String × Json → List Value) : Record :=
  ⟨(members.map fun member => (member.1, values member)).filter fun entry => !entry.2.isEmpty⟩

namespace Record

variable {members : List (String × Json)} {values : String × Json → List Value}

theorem mem_entries_ofMembers {entry : String × List Value} :
    entry ∈ (ofMembers members values).entries ↔
      entry.2 ≠ [] ∧ ∃ member ∈ members, (member.1, values member) = entry := by
  unfold ofMembers
  rw [List.mem_filter, List.mem_map, and_comm]
  simp

/-- A member with values makes the first entry, and one without makes none. -/
theorem entries_ofMembers_cons (member : String × Json) :
    (ofMembers (member :: members) values).entries =
      if values member = [] then (ofMembers members values).entries
      else (member.1, values member) :: (ofMembers members values).entries := by
  unfold ofMembers
  rw [List.map_cons, List.filter_cons]
  cases values member <;> rfl

theorem sorted_ofMembers (sorted : Entries.IsOrdered members) : (ofMembers members values).Sorted := by
  have renamed : Entries.IsOrdered (members.map fun member => (member.1, values member)) :=
    List.pairwise_map.mpr sorted
  exact renamed.filter _

theorem inhabited_ofMembers : (ofMembers members values).Inhabited :=
  fun _ listed => (mem_entries_ofMembers.mp listed).1

theorem fields_ofMembers : (ofMembers members values).fields = (ofMembers members values).entries :=
  List.filter_eq_self.mpr fun entry listed => by simpa using inhabited_ofMembers entry listed

/-- What is looked up under the key of a member. -/
theorem getAll_ofMembers (sorted : Entries.IsOrdered members) {member : String × Json}
    (among : member ∈ members) : (ofMembers members values).getAll member.1 = values member := by
  have ordered : (ofMembers members values).Sorted := sorted_ofMembers sorted
  by_cases none : values member = []
  · -- an entry under this key would be one of this member, whose key no other member has
    by_contra some
    rw [none] at some
    obtain ⟨held, other, listed, same⟩ := mem_entries_ofMembers.mp (mem_entries_of_getAll some)
    have keys : (members.map Prod.fst).Nodup :=
      (List.pairwise_map.mpr (sorted.imp fun less => String.ne_of_lt less))
    obtain ⟨key, rest⟩ := Prod.mk.inj same
    obtain rfl := List.inj_on_of_nodup_map keys listed among key
    exact held (rest.symm.trans none)
  · have entry : (member.1, values member) ∈ (ofMembers members values).entries :=
      mem_entries_ofMembers.mpr ⟨none, member, among, rfl⟩
    rw [getAll, ordered.lookup_eq entry]
    rfl

/-- Where there are values under a name, it is the key of a member that has them. -/
theorem exists_member_of_getAll {name : String}
    (some : (ofMembers members values).getAll name ≠ []) :
    ∃ member ∈ members, member.1 = name ∧
      (ofMembers members values).getAll name = values member := by
  obtain ⟨_, member, among, same⟩ := mem_entries_ofMembers.mp (mem_entries_of_getAll some)
  exact ⟨member, among, congrArg Prod.fst same, (congrArg Prod.snd same).symm⟩

end Record

namespace Field

/-- **The value of a field that a JSON value stands for.** A scalar is what its type takes. An object
is a record that has values for each member: the member names a field, which is repeated if an array
is given, and each instance that is given stands for one value. -/
inductive Reads : Field → Json → Value → Prop
  | scalar {label : Label} {type : ScalarType} {json : Json} {content : Scalar}
      (read : type.ofJson? json = some content) : Reads (.leaf label type) json (.scalar content)
  | record {label : Label} {children : List Field} {members : List (String × Json)}
      {values : String × Json → List Value} (sorted : Entries.IsOrdered members)
      (known : ∀ member ∈ members, ∃ child ∈ children, child.label.name = member.1)
      (repeated : ∀ member ∈ members, ∀ child ∈ children, child.label.name = member.1 →
        ∀ items, member.2 = .array items → child.label.cardinality.isRepeated = true)
      (counts : ∀ member ∈ members, member.2.instances.length = (values member).length)
      (each : ∀ member ∈ members, ∀ child ∈ children, child.label.name = member.1 →
        ∀ item value, (item, value) ∈ member.2.instances.zip (values member) → Reads child item value) :
      Reads (.group label children) (.object members) (.record (.ofMembers members values))

/-- The values that a member of an object gives to the field that it names. -/
def valuesOfMember (children : List Field) (member : String × Json) : Except DecodeFault (List Value) :=
  match children.find? (·.label.name == member.1) with
  | none => .error (.unknownField member.1)
  | some child => child.valuesOfJson member.2

/-- The values of a member that is read. -/
def memberValues (children : List Field) (member : String × Json) : List Value :=
  (valuesOfMember children member).toOption.getD []

theorem recordOfMembers_cons (children : List Field) (member : String × Json)
    (members : List (String × Json)) (record : Record) :
    recordOfMembers children (member :: members) record =
      valuesOfMember children member >>= fun values =>
        recordOfMembers children members (record.append member.1 values) := by
  rw [recordOfMembers]
  unfold valuesOfMember
  cases children.find? (·.label.name == member.1) <;> rfl

/-- A member is given to the field of its name. -/
theorem valuesOfMember_eq {children : List Field} (named : (children.map (·.label.name)).Nodup)
    {child : Field} (listed : child ∈ children) {member : String × Json}
    (same : child.label.name = member.1) :
    valuesOfMember children member = child.valuesOfJson member.2 := by
  have found : children.find? (·.label.name == member.1) = some child :=
    (Schema.find?_eq_some_iff_of_inj fun _ first _ second =>
      List.inj_on_of_nodup_map named first second).mpr ⟨listed, same⟩
  unfold valuesOfMember
  rw [found]

theorem exists_of_valuesOfMember {children : List Field} {member : String × Json}
    {values : List Value} (read : valuesOfMember children member = .ok values) :
    ∃ child ∈ children, child.label.name = member.1 := by
  unfold valuesOfMember at read
  cases found : children.find? (·.label.name == member.1) with
  | none =>
    rw [found] at read
    cases read
  | some child =>
    exact ⟨child, List.mem_of_find?_eq_some found, by simpa using List.find?_some found⟩

/-- **Members are read one after the other.** The invariant is that the names read so far lie before
the keys to come, so that each entry is put behind the last. -/
theorem exists_valuesOfMember {children : List Field} : ∀ {members : List (String × Json)}
    {before : List (String × List Value)} {record : Record}, Entries.IsOrdered members →
    (∀ earlier ∈ before, ∀ member ∈ members, earlier.1 < member.1) →
    recordOfMembers children members ⟨before⟩ = .ok record →
    (∀ member ∈ members, valuesOfMember children member = .ok (memberValues children member)) ∧
      record.entries = before ++ (Record.ofMembers members (memberValues children)).entries
  | [], before, record, _, _, read => by
    cases read
    exact ⟨List.forall_mem_nil _, (List.append_nil before).symm⟩
  | member :: members, before, record, sorted, less, read => by
    obtain ⟨above, restSorted⟩ := List.pairwise_cons.mp sorted
    rw [recordOfMembers_cons, bind_eq_ok] at read
    obtain ⟨values, here, later⟩ := read
    have own : memberValues children member = values := by rw [memberValues, here]; rfl
    have behind : ∀ earlier ∈ before, earlier.1 < member.1 :=
      fun earlier listed => less earlier listed member List.mem_cons_self
    rw [List.forall_mem_cons, own]
    by_cases none : values = []
    · subst none
      have apart : ∀ earlier ∈ before, ∀ other ∈ members, earlier.1 < other.1 :=
        fun earlier listed other among => less earlier listed other (List.mem_cons_of_mem _ among)
      obtain ⟨each, entries⟩ := exists_valuesOfMember restSorted apart later
      refine ⟨⟨here, each⟩, ?_⟩
      rw [entries, Record.entries_ofMembers_cons, if_pos own]
    · rw [Record.append_of_forall_lt behind none] at later
      have apart : ∀ earlier ∈ before ++ [(member.1, values)], ∀ other ∈ members,
          earlier.1 < other.1 := by
        intro earlier listed other among
        rcases List.mem_append.mp listed with old | new
        · exact less earlier old other (List.mem_cons_of_mem _ among)
        · rw [List.mem_singleton.mp new]
          exact above other among
      obtain ⟨each, entries⟩ := exists_valuesOfMember restSorted apart later
      refine ⟨⟨here, each⟩, ?_⟩
      rw [entries, Record.entries_ofMembers_cons, own, if_neg none, List.append_assoc,
        List.singleton_append]

/-- What the members of an object are read as is what the object stands for, if so it is for each
instance that a member gives to the field of its name. -/
theorem reads_of_recordOfMembers {label : Label} {children : List Field}
    {members : List (String × Json)} {record : Record} (sorted : Entries.IsOrdered members)
    (named : (children.map (·.label.name)).Nodup)
    (read : recordOfMembers children members .empty = .ok record)
    (each : ∀ member ∈ members, ∀ child ∈ children, ∀ item ∈ member.2.instances, ∀ value,
      child.valueOfItem item = .ok value → child.Reads item value) :
    Reads (.group label children) (.object members) (.record record) := by
  obtain ⟨taken, entries⟩ := exists_valuesOfMember sorted (by simp) read
  obtain rfl : record = .ofMembers members (memberValues children) :=
    Record.ext_entries (entries.trans (List.nil_append _))
  -- what a member gives, as its field reads it
  have steps : ∀ member ∈ members, ∀ child ∈ children, child.label.name = member.1 →
      child.valuesOfJson member.2 = .ok (memberValues children member) := by
    intro member among child listed same
    rw [← valuesOfMember_eq named listed same]
    exact taken member among
  have known : ∀ member ∈ members, ∃ child ∈ children, child.label.name = member.1 :=
    fun member among => exists_of_valuesOfMember (taken member among)
  refine .record sorted known ?_ ?_ ?_
  · intro member among child listed same
    exact (valuesOfJson_eq_ok.mp (steps member among child listed same)).2
  · intro member among
    obtain ⟨child, listed, same⟩ := known member among
    exact (valuesOfJson_eq_ok.mp (steps member among child listed same)).1.length_eq
  · intro member among child listed same item value paired
    have read := (valuesOfJson_eq_ok.mp (steps member among child listed same)).1
    exact each member among child listed item (List.of_mem_zip paired).1 value
      (List.forall₂_zip read paired)

/-- **What is read is what the JSON value stands for.** -/
theorem reads_of_valueOfItem {json : Json} (wellFormed : json.IsWellFormed) : ∀ {field : Field}
    {value : Value}, field.WellFormed → field.valueOfItem json = .ok value →
      field.Reads json value := by
  induction json using Json.inductionOn with
  | plain json notObject =>
    intro field value _ read
    rw [valueOfItem_eq_ok] at read
    cases field with
    | leaf label type =>
      obtain ⟨content, found, rfl⟩ := read
      exact .scalar found
    | group label children =>
      obtain ⟨members, _, object, _⟩ := read
      exact absurd object (notObject members)
  | object members ih =>
    intro field value tree read
    rw [valueOfItem_eq_ok] at read
    cases field with
    | leaf label type =>
      obtain ⟨content, found, rfl⟩ := read
      exact .scalar found
    | group label children =>
      obtain ⟨_, record, ⟨⟩, read, rfl⟩ := read
      cases wellFormed with
      | object sorted below =>
        cases tree with
        | group _ _ named _ trees =>
          refine reads_of_recordOfMembers sorted named read ?_
          intro member among child listed item inside value read
          exact ih member among item inside ((below member among).of_mem_instances inside)
            (trees child listed) read

/-! ### What is known of a value that is read -/

section Members

variable {children : List Field} {members : List (String × Json)}
  {values : String × Json → List Value}

/-- Every value of a member is read from an instance of it. -/
theorem exists_instance_of_mem {member : String × Json}
    (count : member.2.instances.length = (values member).length) {value : Value}
    (held : value ∈ values member) :
    ∃ item, (item, value) ∈ member.2.instances.zip (values member) := by
  have paired : List.Forall₂ (fun value item => (item, value) ∈ member.2.instances.zip (values member))
      (values member) member.2.instances :=
    (List.forall₂_iff_zip.mpr ⟨count, fun among => among⟩).flip
  obtain ⟨item, _, among⟩ := exists_of_mem_of_forall₂ paired held
  exact ⟨item, among⟩

/-- From every instance of a member a value is read. -/
theorem exists_value_of_mem {member : String × Json}
    (count : member.2.instances.length = (values member).length) {item : Json}
    (inside : item ∈ member.2.instances) :
    ∃ value, (item, value) ∈ member.2.instances.zip (values member) := by
  have paired : List.Forall₂ (fun item value => (item, value) ∈ member.2.instances.zip (values member))
      member.2.instances (values member) :=
    List.forall₂_iff_zip.mpr ⟨count, fun among => among⟩
  obtain ⟨value, _, among⟩ := exists_of_mem_of_forall₂ paired inside
  exact ⟨value, among⟩

/-- Every value of a record that is read is one of a member that names a field, and is read from an
instance of the member. -/
theorem exists_member_of_mem_entries
    (known : ∀ member ∈ members, ∃ child ∈ children, child.label.name = member.1)
    (counts : ∀ member ∈ members, member.2.instances.length = (values member).length)
    {entry : String × List Value} (listed : entry ∈ (Record.ofMembers members values).entries)
    {value : Value} (held : value ∈ entry.2) :
    ∃ member ∈ members, ∃ child ∈ children, child.label.name = member.1 ∧
      ∃ item, (item, value) ∈ member.2.instances.zip (values member) := by
  obtain ⟨_, member, among, rfl⟩ := Record.mem_entries_ofMembers.mp listed
  obtain ⟨child, named, same⟩ := known member among
  exact ⟨member, among, child, named, same, exists_instance_of_mem (counts member among) held⟩

end Members

/-- **A value that is read conforms to its field**, but for required fields that it lacks. -/
theorem Reads.conforms {field : Field} {json : Json} {value : Value} (reads : field.Reads json value) :
    value.Conforms Cardinality.HasRoomFor field := by
  induction reads with
  | scalar read => exact .scalar (ScalarType.type_of_ofJson? read)
  | @record label children members values sorted known repeated counts _ ih =>
    refine .record ?_ ?_ ?_
    · intro entry listed
      rw [Record.fields_ofMembers] at listed
      obtain ⟨_, member, among, rfl⟩ := Record.mem_entries_ofMembers.mp listed
      exact known member among
    · intro child listed
      by_cases none : (Record.ofMembers members values).getAll child.label.name = []
      · exact .inr (by simp [none])
      · obtain ⟨member, among, same, held⟩ := Record.exists_member_of_getAll none
        rw [held, ← counts member among]
        exact hasRoomFor_instances (repeated member among child listed same.symm)
    · intro child listed value held
      obtain ⟨member, among, same, values⟩ :=
        Record.exists_member_of_getAll (List.ne_nil_of_mem held)
      rw [values] at held
      obtain ⟨item, paired⟩ := exists_instance_of_mem (counts member among) held
      exact ih member among child listed same.symm item value paired

end Field

namespace Schema

/-- A record that is read from a JSON object is what the object stands for. -/
theorem reads_of_recordOfJson {schema : Schema} {json : Json} {record : Record}
    (accepted : schema.IsAccepted) (wellFormed : json.IsWellFormed)
    (read : schema.recordOfJson json = .ok record) :
    schema.root.field.Reads json (.record record) := by
  refine Field.reads_of_valueOfItem wellFormed accepted.wellFormed (Field.valueOfItem_eq_ok.mpr ?_)
  cases json with
  | object members => exact ⟨members, record, rfl, read, rfl⟩
  | null | boolean | number | string | array => cases read

end Schema

end NestedColumns
