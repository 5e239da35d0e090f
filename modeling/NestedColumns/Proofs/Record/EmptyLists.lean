/-
Entries without values are seen by nobody.

A record can hold an entry with an empty list of values or leave the entry out, at every depth. The
type keeps the two apart, readers do not: `Record.isAlike_pruned` compares a record with the one
without such entries. Each reader gets a lemma of its own, by its own recursion:

* `Field.shred_pruned` — taking the record apart gives the same rows, or the same fault;
* `Projection.erase_pruned` — erasing leaves the same, but for empty entries;
* `Record.toJson_pruned`, `Record.text_pruned` — the JSON object and the text are the same.
-/

import NestedColumns.Json.Record
import NestedColumns.Proofs.Record.Equality
import NestedColumns.Projection.Erase
import NestedColumns.Record.Text
import NestedColumns.Striping.Staged

namespace NestedColumns

/-! ### Taking apart -/

theorem mapIdx_map_congr {α β γ : Type} {view : α → β} {f : Nat → β → γ} {f' : Nat → α → γ}
    {list : List α} (same : ∀ index, ∀ a ∈ list, f index (view a) = f' index a) :
    (list.map view).mapIdx f = list.mapIdx f' := by
  refine List.ext_getElem (by simp) fun index _ inside => ?_
  simp only [List.getElem_mapIdx, List.getElem_map]
  exact same index _ (List.getElem_mem _)

namespace Field

theorem unknownName?_pruned (fields : List Field) (record : Record) :
    unknownName? fields record.pruned = unknownName? fields record := by
  unfold unknownName?
  rw [Record.fields_pruned, Record.entries_pruned_eq, List.find?_map, Option.map_map]
  rfl

mutual

/-- **Taking a value apart** does not see empty entries. -/
theorem shred_pruned {path : Path} {column : Nat} {level : Level} :
    ∀ {field : Field} {value : Value}, value.IsOrdered →
      field.shred path column level value.pruned = field.shred path column level value
  | .leaf label type, .record record, _ => by rw [Value.pruned, shred, shred]
  | .leaf label type, .scalar content, _ => rfl
  | .group label children, .scalar content, _ => rfl
  | .group label children, .record record, ordered => by
    rw [Value.pruned, shred, shred, unknownName?_pruned, shredAll_pruned ordered]

theorem shredAll_pruned {path : Path} {level : Level} {record : Record} (ordered : record.IsOrdered) :
    ∀ {column : Nat} {fields : List Field},
      shredAll path column level fields record.pruned = shredAll path column level fields record
  | column, [] => rfl
  | column, field :: fields => by
    have each (own : Nat → Level) :
        ((record.getAll field.label.name).map Value.pruned).mapIdx (fun index value =>
          field.shred (path ++ [field.label]) column (own index) value) =
        (record.getAll field.label.name).mapIdx fun index value =>
          field.shred (path ++ [field.label]) column (own index) value :=
      mapIdx_map_congr fun _ _ among => shred_pruned (ordered.of_mem_getAll among)
    rw [shredAll, shredAll, Record.getAll_pruned ordered.sorted, List.isEmpty_map, List.length_map,
      shredAll_pruned ordered, each]

end

end Field

theorem Schema.stage_pruned (schema : Schema) {record : Record} (ordered : record.IsOrdered) :
    schema.stage record.pruned = schema.stage record := by
  have whole : (Value.record record).IsOrdered := ordered
  have shredded : schema.shred record.pruned = schema.shred record := Field.shred_pruned whole
  unfold stage
  rw [shredded]

/-! ### Erasing -/

theorem Record.pruned_append {record : Record} (sorted : record.Sorted) (name : String)
    (values : List Value) :
    (record.append name values).pruned = record.pruned.append name (values.map Value.pruned) := by
  refine ext_getAll sorted.append.pruned sorted.pruned.append (inhabited_pruned _)
    ((inhabited_pruned record).append sorted.pruned _ _) fun other => ?_
  rw [getAll_pruned sorted.append]
  by_cases named : other = name
  · subst named
    rw [getAll_append_self sorted, getAll_append_self sorted.pruned, getAll_pruned sorted,
      List.map_append]
  · rw [getAll_append_of_ne named, getAll_append_of_ne named, getAll_pruned sorted]

namespace Field

variable {covered : FieldId → Bool}

mutual

theorem eraseValue_pruned : ∀ {field : Field} {value : Value}, value.IsOrdered →
    field.eraseValue covered value.pruned = (field.eraseValue covered value).pruned
  | .leaf label type, value, _ => by simp [eraseValue]
  | .group label children, .scalar content, _ => by simp [eraseValue, Value.pruned]
  | .group label children, .record record, ordered => by
    rw [Value.pruned, eraseValue, eraseValue, Value.pruned]
    exact congrArg Value.record (eraseFields_pruned ordered Record.sorted_empty)

/-- **What is left of the fields of a record**, but for empty entries, does not depend on them. -/
theorem eraseFields_pruned {record : Record} (ordered : record.IsOrdered) :
    ∀ {fields : List Field} {kept : Record}, kept.Sorted →
      eraseFields covered fields record.pruned kept.pruned =
        (eraseFields covered fields record kept).pruned
  | [], _, _ => rfl
  | field :: fields, kept, sorted => by
    have values : (record.pruned.getAll field.label.name).map (field.eraseValue covered) =
        ((record.getAll field.label.name).map (field.eraseValue covered)).map Value.pruned := by
      rw [Record.getAll_pruned ordered.sorted, List.map_map, List.map_map]
      exact List.map_congr_left fun value among => eraseValue_pruned (ordered.of_mem_getAll among)
    rw [eraseFields, eraseFields]
    by_cases covers : covered field.label.id = true
    · rw [if_pos covers, if_pos covers, values, ← Record.pruned_append sorted]
      exact eraseFields_pruned ordered sorted.append
    · rw [if_neg covers, if_neg covers]
      exact eraseFields_pruned ordered sorted

end

end Field

theorem Projection.erase_pruned (projection : Projection) (schema : Schema) {record : Record}
    (ordered : record.IsOrdered) :
    projection.erase schema record.pruned = (projection.erase schema record).pruned :=
  Field.eraseFields_pruned ordered Record.sorted_empty

/-! ### Writing as JSON and as text -/

mutual

theorem Value.toJson_pruned : ∀ value : Value, value.pruned.toJson = value.toJson
  | .scalar content => rfl
  | .record content => by rw [Value.pruned, Value.toJson, Value.toJson, Record.toJson_pruned content]

/-- **The JSON object of a record** has no members for empty entries. -/
theorem Record.toJson_pruned : ∀ record : Record, record.pruned.toJson = record.toJson
  | ⟨entries⟩ => congrArg Json.object (Record.jsonMembers_pruned entries)

theorem Record.jsonMembers_pruned : ∀ entries : List (String × List Value),
    Record.jsonMembers (Record.prunedEntries entries) = Record.jsonMembers entries
  | [] => rfl
  | (name, []) :: rest => Record.jsonMembers_pruned rest
  | (name, value :: values) :: rest => by
    have held := Value.listToJson_pruned (value :: values)
    rw [Value.prunedList] at held
    rw [Record.prunedEntries, Record.jsonMembers, Record.jsonMembers, held,
      Record.jsonMembers_pruned rest]

theorem Value.listToJson_pruned : ∀ values : List Value,
    Value.listToJson (Value.prunedList values) = Value.listToJson values
  | [] => rfl
  | value :: values => by
    rw [Value.prunedList, Value.listToJson, Value.listToJson, Value.toJson_pruned value,
      Value.listToJson_pruned values]

end

mutual

theorem Value.text_pruned : ∀ value : Value, value.pruned.text = value.text
  | .scalar content => rfl
  | .record content => by rw [Value.pruned, Value.text, Value.text, Record.text_pruned content]

/-- **The text of a record** leaves empty entries out. -/
theorem Record.text_pruned : ∀ record : Record, record.pruned.text = record.text
  | ⟨entries⟩ => by rw [Record.pruned, Record.text, Record.text, Record.entryTexts_pruned entries]

theorem Record.entryTexts_pruned : ∀ entries : List (String × List Value),
    Record.entryTexts (Record.prunedEntries entries) = Record.entryTexts entries
  | [] => rfl
  | (name, []) :: rest => Record.entryTexts_pruned rest
  | (name, value :: values) :: rest => by
    have held := Value.texts_pruned (value :: values)
    rw [Value.prunedList] at held
    rw [Record.prunedEntries, Record.entryTexts, Record.entryTexts, held,
      Record.entryTexts_pruned rest]

theorem Value.texts_pruned : ∀ values : List Value,
    Value.texts (Value.prunedList values) = Value.texts values
  | [] => rfl
  | value :: values => by
    rw [Value.prunedList, Value.texts, Value.texts, Value.text_pruned value, Value.texts_pruned values]

end

/-! ### No reader tells the records apart -/

namespace Record

/-- Two records that no reader tells apart, as long as records it gets from them count as the same
if they show the same fields. Equality does where numbers are not equal to themselves. -/
structure IsAlike (a b : Record) : Prop where
  stage : ∀ schema : Schema, schema.stage a = schema.stage b
  erase : ∀ (schema : Schema) (projection : Projection),
    (projection.erase schema a).Same (projection.erase schema b)
  toJson : a.toJson = b.toJson
  text : a.text = b.text
  fields : a.Same b
  size : a.size = b.size
  isEmpty : a.isEmpty = b.isEmpty
  contains : ∀ name, a.contains name = b.contains name
  get? : ∀ name, Option.Rel Value.Same (a.get? name) (b.get? name)
  getAll : ∀ name, List.Forall₂ Value.Same (a.getAll name) (b.getAll name)
  isEqual : (Value.record a).EachScalar Scalar.IsNotNaN → a.isEqual b = true

theorem size_pruned (record : Record) : record.pruned.size = record.size := by
  unfold size
  rw [fields_pruned, entries_pruned_eq, List.length_map]

theorem getAll_same_pruned {record : Record} (sorted : record.Sorted) (name : String) :
    List.Forall₂ Value.Same (record.getAll name) (record.pruned.getAll name) := by
  rw [getAll_pruned sorted, List.forall₂_map_right_iff, List.forall₂_same]
  exact fun value _ => (Value.same_iff_pruned_eq _ _).mpr (Value.pruned_pruned value).symm

/-- **Entries without values are seen by nobody**, at whatever depth they stand. -/
theorem isAlike_pruned {record : Record} (ordered : record.IsOrdered) :
    record.IsAlike record.pruned where
  stage schema := (schema.stage_pruned ordered).symm
  erase schema projection := by
    rw [projection.erase_pruned schema ordered]
    exact (same_pruned _).symm
  toJson := record.toJson_pruned.symm
  text := record.text_pruned.symm
  fields := record.same_pruned.symm
  size := record.size_pruned.symm
  isEmpty := by rw [isEmpty, isEmpty, size_pruned]
  contains name := by rw [contains, contains, getAll_pruned ordered.sorted, List.isEmpty_map]
  get? name := by
    have values := getAll_same_pruned ordered.sorted name
    unfold get?
    generalize record.getAll name = held at values ⊢
    generalize record.pruned.getAll name = kept at values ⊢
    cases values with
    | nil => exact .none
    | cons here _ => exact .some here
  getAll name := getAll_same_pruned ordered.sorted name
  isEqual notNaN := (Value.isEqual_of_same record.same_pruned.symm notNaN).1

/-- Asking for the values of a field to change them makes an entry and no value. -/
theorem getAll_touch {record : Record} (sorted : record.Sorted) (name other : String) :
    (record.touch name).getAll other = record.getAll other := by
  by_cases named : other = name
  · subst named
    exact getAll_change_self sorted
  · exact getAll_change_of_ne named

theorem IsOrdered.touch {record : Record} (ordered : record.IsOrdered) (name : String) :
    (record.touch name).IsOrdered := by
  have sorted : (record.touch name).Sorted := ordered.sorted.change
  refine .record sorted fun entry member value among => ?_
  have held : record.getAll entry.1 = entry.2 := by
    rw [← getAll_touch ordered.sorted name, getAll, sorted.lookup_eq member, Option.getD_some]
  exact ordered.of_mem_getAll (held ▸ among)

end Record

/-- A document that was asked for its links, and its only name for its languages. -/
def Sample.askedDocument : Record :=
  let name := (record [("Url", [text "http://C"])]).touch "Language"
  (record [("DocId", [int 20]), ("Name", [.record name])]).touch "Links"

theorem Sample.isOrdered_askedDocument : askedDocument.IsOrdered := by
  have name : (Sample.record [("Url", [text "http://C"])]).IsOrdered :=
    isOrdered_group (by simp [text, Value.IsOrdered.scalar])
  have touched : (Value.record
      ((Sample.record [("Url", [text "http://C"])]).touch "Language")).IsOrdered :=
    name.touch "Language"
  refine Record.IsOrdered.touch (isOrdered_group ?_) _
  simpa [int, Value.IsOrdered.scalar] using touched

/-- The document is the same to every reader as one that was never asked. -/
theorem Record.isAlike_askedDocument : Sample.askedDocument.IsOrdered ∧
    Sample.askedDocument.entries.map (·.1) = ["DocId", "Links", "Name"] ∧
    Sample.askedDocument.IsAlike (Sample.record
      [("DocId", [Sample.int 20]), ("Name", [Sample.group [("Url", [Sample.text "http://C"])]])]) :=
  ⟨Sample.isOrdered_askedDocument, rfl, isAlike_pruned Sample.isOrdered_askedDocument⟩

end NestedColumns
