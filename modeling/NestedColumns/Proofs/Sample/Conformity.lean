/-
Random records conform.

Random records and random documents are made by filling the fields of a group one after the other
(`Sample.Fills`), and what is filled so conforms to the group (`Sample.conforms_group`). Every count
and every scalar is drawn from a range that is not empty, so a record always comes out of a source
that keeps to its ranges.

* `Sample.gives_randomValue` — **a random value conforms to its field**, with no more values of a
  repeated field than the shape allows, by induction on the tree of fields.
* `Sample.gives_randomDocument` — a random document conforms to the type of documents, and its lists
  are shorter than the bounds of its shape.
* `Sample.conforms_of_random` — both, for whole series of records: **staging takes every record that
  is drawn.**
-/

import NestedColumns.Proofs.Sample.Draws
import NestedColumns.Proofs.Schema.Accepted
import NestedColumns.Proofs.Record.Pruned
import NestedColumns.Proofs.Striping.Conformity
import NestedColumns.Sample.Documents
import NestedColumns.Sample.Records

namespace NestedColumns.Sample

/-! ### Groups that are filled -/

/-- The values under a name fill a field. -/
structure Fills (allowed : Cardinality → Nat → Prop) (entry : String × List Value) (field : Field) :
    Prop where
  named : field.label.name = entry.1
  count : allowed field.label.cardinality entry.2.length
  each : ∀ value ∈ entry.2, value.Conforms allowed field

/-- The record with more values for several fields. -/
abbrev appendAll (entries : List (String × List Value)) (record : Record) : Record :=
  entries.foldl (fun made entry => made.append entry.1 entry.2) record

theorem getAll_appendAll_of_not_mem {name : String} : ∀ {entries : List (String × List Value)}
    {record : Record}, (∀ entry ∈ entries, entry.1 ≠ name) →
      (appendAll entries record).getAll name = record.getAll name
  | [], _, _ => rfl
  | entry :: entries, record, differs => by
    rw [List.forall_mem_cons] at differs
    rw [appendAll, List.foldl_cons]
    refine (getAll_appendAll_of_not_mem differs.2).trans ?_
    exact Record.getAll_append_of_ne differs.1.symm entry.2

/-- Names that differ keep their own values. -/
theorem getAll_appendAll : ∀ {entries : List (String × List Value)} {record : Record},
    record.Sorted → (entries.map (·.1)).Nodup → ∀ entry ∈ entries,
      (appendAll entries record).getAll entry.1 = record.getAll entry.1 ++ entry.2
  | first :: entries, record, sorted, distinct, entry, listed => by
    rw [List.map_cons, List.nodup_cons] at distinct
    rw [appendAll, List.foldl_cons]
    rcases List.mem_cons.mp listed with rfl | later
    · refine (getAll_appendAll_of_not_mem fun other among same => distinct.1 ?_).trans
        (Record.getAll_append_self sorted _ _)
      exact List.mem_map.mpr ⟨other, among, same⟩
    · have differs : entry.1 ≠ first.1 := fun same =>
        distinct.1 (List.mem_map.mpr ⟨entry, later, same⟩)
      refine (getAll_appendAll sorted.append distinct.2 entry later).trans ?_
      rw [Record.getAll_append_of_ne differs]

/-- No other names come in. -/
theorem mem_entries_appendAll {held : String × List Value} : ∀ (entries : List (String × List Value))
    {record : Record}, held ∈ (appendAll entries record).entries →
      (∃ entry ∈ entries, entry.1 = held.1) ∨ held ∈ record.entries
  | [], _, listed => .inr listed
  | entry :: entries, record, listed => by
    rcases mem_entries_appendAll entries listed with ⟨other, among, same⟩ | before
    · exact .inl ⟨other, List.mem_cons_of_mem _ among, same⟩
    · by_cases here : entry.1 = held.1
      · exact .inl ⟨entry, List.mem_cons_self, here⟩
      · exact .inr (Record.mem_entries_of_mem_append (Ne.symm here) before)

/-- A record holds what it is made of. -/
theorem getAll_record {entries : List (String × List Value)} (distinct : (entries.map (·.1)).Nodup)
    {entry : String × List Value} (listed : entry ∈ entries) :
    (record entries).getAll entry.1 = entry.2 :=
  getAll_appendAll Record.sorted_empty distinct entry listed

/-- **A group conforms whose fields are filled one by one.** -/
theorem conforms_group {allowed : Cardinality → Nat → Prop} {label : Label} {children : List Field}
    {entries : List (String × List Value)} (named : (children.map (·.label.name)).Nodup)
    (filled : List.Forall₂ (Fills allowed) entries children) :
    (group entries).Conforms allowed (.group label children) := by
  have names : entries.map (·.1) = children.map (·.label.name) := by
    rw [← List.forall₂_eq_eq_eq, List.forall₂_map_left_iff, List.forall₂_map_right_iff]
    exact filled.imp fun _ _ fills => fills.named.symm
  rw [← names] at named
  have held : ∀ child ∈ children, ∃ entry, Fills allowed entry child ∧
      (record entries).getAll child.label.name = entry.2 := by
    intro child listed
    obtain ⟨entry, among, fills⟩ := exists_of_mem_of_forall₂ filled.flip listed
    refine ⟨entry, fills, ?_⟩
    rw [fills.named, getAll_record named among]
  refine .record ?_ ?_ ?_
  · intro held shown
    rcases mem_entries_appendAll entries (List.mem_of_mem_filter shown) with ⟨entry, among, same⟩ | none
    · obtain ⟨child, listed, fills⟩ := exists_of_mem_of_forall₂ filled among
      exact ⟨child, listed, fills.named.trans same⟩
    · exact absurd none List.not_mem_nil
  · intro child listed
    obtain ⟨entry, fills, values⟩ := held child listed
    rw [values]
    exact fills.count
  · intro child listed value among
    obtain ⟨entry, fills, values⟩ := held child listed
    rw [values] at among
    exact fills.each value among

/-! ### The groups of a document -/

/-- The group of the links of a document. -/
def linksField : Field :=
  .group ⟨2, "Links", .optional⟩
    [ .leaf ⟨3, "Backward", .repeated⟩ .int64,
      .leaf ⟨4, "Forward", .repeated⟩ .int64 ]

/-- The group of a language. -/
def languageField : Field :=
  .group ⟨6, "Language", .repeated⟩
    [ .leaf ⟨7, "Code", .required⟩ .string,
      .leaf ⟨8, "Country", .optional⟩ .string ]

/-- The group of a name. -/
def nameField : Field :=
  .group ⟨5, "Name", .repeated⟩ [languageField, .leaf ⟨9, "Url", .optional⟩ .string]

/-- The lists of a document are shorter than the bounds of its shape. -/
structure DocumentShape.Bounds (shape : DocumentShape) (document : Record) : Prop where
  names : (document.getAll "Name").length < shape.maxNames
  links : ∀ links, .record links ∈ document.getAll "Links" →
    (links.getAll "Backward").length < shape.maxLinks ∧
      (links.getAll "Forward").length < shape.maxLinks
  languages : ∀ name, .record name ∈ document.getAll "Name" →
    (name.getAll "Language").length < shape.maxLanguages

/-- A text fills a field of texts. -/
theorem fills_text {id : FieldId} {name : String} {cardinality : Cardinality} (content : String) :
    Fills Cardinality.Allows (name, [text content]) (.leaf ⟨id, name, cardinality⟩ .string) where
  named := rfl
  count := by
    cases cardinality with
    | required => exact rfl
    | optional => exact Nat.le_refl 1
    | repeated => trivial
  each := List.forall_mem_singleton.mpr (.scalar rfl)

/-- An optional field may stay empty. -/
theorem fills_nil {id : FieldId} {name : String} {type : ScalarType} :
    Fills Cardinality.Allows (name, []) (.leaf ⟨id, name, .optional⟩ type) where
  named := rfl
  count := Nat.zero_le 1
  each := List.forall_mem_nil _

/-- A name is filled with languages and, maybe, an address. -/
theorem conforms_name {spoken address : List Value} {more : Nat}
    (languages : spoken.length < more ∧ ∀ value ∈ spoken, value.Conforms Cardinality.Allows languageField)
    (filled : Fills Cardinality.Allows ("Url", address) (.leaf ⟨9, "Url", .optional⟩ .string)) :
    (group [("Language", spoken), ("Url", address)]).Conforms Cardinality.Allows nameField ∧
      ((record [("Language", spoken), ("Url", address)]).getAll "Language").length < more := by
  refine ⟨conforms_group (by decide) (.cons ⟨rfl, trivial, languages.2⟩ (.cons filled .nil)), ?_⟩
  have distinct : ([("Language", spoken), ("Url", address)].map (·.1)).Nodup := by simp
  rw [getAll_record distinct List.mem_cons_self]
  exact languages.1

/-! ### Random records -/

/-- How many values a random record has of a field: as many as the cardinality allows, and of a
repeated field at most the number in its shape. -/
def RecordShape.Allows (shape : RecordShape) (cardinality : Cardinality) (count : Nat) : Prop :=
  cardinality.Allows count ∧ (cardinality.isRepeated = true → count ≤ shape.maxRepeat)

section Draws

variable {σ : Type} {source : Source σ} (inRange : source.IsInRange)

include inRange

theorem gives_randomScalar (type : ScalarType) :
    (randomScalar source type).Gives fun content => content.type = type := by
  cases type with
  | boolean => exact (Draw.gives_always _).bind fun _ _ => .pure rfl
  | int64 => exact (inRange.gives_intRange 64 (by decide)).bind fun _ _ => .pure rfl
  | float64 => exact (inRange.gives_intRange 32 (by decide)).bind fun _ _ => .pure rfl
  | string =>
    exact (inRange.gives_range (by decide)).bind fun length _ =>
      (Draw.gives_letters length).bind fun _ _ => .pure rfl

theorem gives_randomCount (shape : RecordShape) (cardinality : Cardinality) :
    (randomCount source shape cardinality).Gives (shape.Allows cardinality) := by
  cases cardinality with
  | required => exact .pure ⟨rfl, nofun⟩
  | optional =>
    refine (Draw.gives_chance _).bind fun present _ => .pure ⟨?_, nofun⟩
    cases present <;> simp [Cardinality.Allows]
  | repeated =>
    refine (inRange.gives_range (Nat.succ_pos _)).mono fun count bounds => ⟨trivial, fun _ => ?_⟩
    exact Nat.le_of_lt_succ bounds.2

mutual

/-- **A random value conforms to its field.** -/
theorem gives_randomValue (shape : RecordShape) : ∀ {field : Field}, field.WellFormed →
    (randomValue source shape field).Gives fun value => value.Conforms shape.Allows field
  | .leaf label type, _ => by
    rw [randomValue]
    exact (gives_randomScalar inRange type).bind fun content typed => .pure (.scalar typed)
  | .group label children, .group _ _ named _ each => by
    rw [randomValue]
    refine (gives_randomFields shape each).bind fun made filled => .pure ?_
    obtain ⟨entries, rfl, filled⟩ := filled
    exact conforms_group named filled

/-- The fields of a group are filled one after the other. -/
theorem gives_randomFields (shape : RecordShape) : ∀ {fields : List Field} {start : Record},
    (∀ field ∈ fields, field.WellFormed) → (randomFields source shape fields start).Gives fun made =>
      ∃ entries, made = appendAll entries start ∧ List.Forall₂ (Fills shape.Allows) entries fields
  | [], start, _ => .pure ⟨[], rfl, .nil⟩
  | field :: fields, start, each => by
    rw [List.forall_mem_cons] at each
    rw [randomFields]
    refine (gives_randomCount inRange shape _).bind fun count allowed => ?_
    refine ((gives_randomValue shape each.1).times count).bind fun values drawn => ?_
    refine (gives_randomFields shape each.2).mono fun made filled => ?_
    obtain ⟨entries, same, filled⟩ := filled
    exact ⟨(field.label.name, values) :: entries, same, .cons ⟨rfl, drawn.1 ▸ allowed, drawn.2⟩ filled⟩

end

/-! ### Random documents -/

variable {shape : DocumentShape}

theorem gives_randomLinks (some : 0 < shape.maxLinks) :
    (randomLinks source shape).Gives fun links => links.length < shape.maxLinks ∧
      ∀ label, ∀ link ∈ links, link.Conforms Cardinality.Allows (.leaf label .int64) := by
  refine (inRange.gives_range some).bind fun count bounds => ?_
  refine ((inRange.gives_intRange 64 (by decide)).times count).bind fun links drawn => .pure ⟨?_, ?_⟩
  · rw [List.length_map, drawn.1]
    exact bounds.2
  · intro label link among
    obtain ⟨value, _, rfl⟩ := List.mem_map.mp among
    exact .scalar rfl

theorem gives_randomLinkGroup (some : 0 < shape.maxLinks) :
    (randomLinkGroup source shape).Gives fun groups => groups.length ≤ 1 ∧ ∀ value ∈ groups,
      value.Conforms Cardinality.Allows linksField ∧ ∀ links, value = .record links →
        (links.getAll "Backward").length < shape.maxLinks ∧
          (links.getAll "Forward").length < shape.maxLinks := by
  refine (Draw.gives_chance _).bind fun _ _ => .ite (fun _ => ?_) fun _ => ?_
  · refine (gives_randomLinks inRange some).bind fun backward first =>
      (gives_randomLinks inRange some).bind fun forward second =>
        .pure ⟨Nat.le_refl 1, List.forall_mem_singleton.mpr ⟨?_, ?_⟩⟩
    · exact conforms_group (by decide)
        (.cons ⟨rfl, trivial, first.2 _⟩ (.cons ⟨rfl, trivial, second.2 _⟩ .nil))
    · rintro links ⟨⟩
      have distinct : ([("Backward", backward), ("Forward", forward)].map (·.1)).Nodup := by simp
      have backwards := getAll_record distinct List.mem_cons_self
      have forwards := getAll_record distinct (List.mem_cons_of_mem _ List.mem_cons_self)
      rw [backwards, forwards]
      exact ⟨first.1, second.1⟩
  · exact .pure ⟨Nat.zero_le 1, List.forall_mem_nil _⟩

theorem gives_randomLanguage :
    (randomLanguage source shape).Gives fun value => value.Conforms Cardinality.Allows languageField := by
  refine (inRange.gives_range (by decide)).bind fun index _ =>
    (Draw.gives_chance _).bind fun _ _ => .ite (fun _ => .pure ?_) fun _ => .pure ?_
  · show (group [("Code", [text _]), ("Country", [text _])]).Conforms _ _
    exact conforms_group (by decide) (.cons (fills_text _) (.cons (fills_text _) .nil))
  · show (group [("Code", [text _]), ("Country", [])]).Conforms _ _
    exact conforms_group (by decide) (.cons (fills_text _) (.cons fills_nil .nil))

theorem gives_randomName (some : 0 < shape.maxLanguages) :
    (randomName source shape).Gives fun value => value.Conforms Cardinality.Allows nameField ∧
      ∀ name, value = .record name → (name.getAll "Language").length < shape.maxLanguages := by
  refine (inRange.gives_range some).bind fun count bounds => ?_
  refine ((gives_randomLanguage inRange).times count).bind fun spoken drawn => ?_
  have few : spoken.length < shape.maxLanguages := drawn.1 ▸ bounds.2
  refine (Draw.gives_chance _).bind fun _ _ => .ite (fun _ => ?_) fun _ => ?_
  · refine (Draw.gives_letters 10).bind fun host _ =>
      (Draw.gives_letters 2).bind fun domain _ => .pure ?_
    -- the address is put behind the languages, also where there are none
    have behind (address : Value) : (record [("Language", spoken)]).set "Url" address =
        record [("Language", spoken), ("Url", [address])] := by
      cases spoken <;> rfl
    rw [behind]
    have conforms := conforms_name ⟨few, drawn.2⟩ (fills_text ("http://" ++ host ++ "." ++ domain))
    exact ⟨conforms.1, by rintro name ⟨⟩; exact conforms.2⟩
  · have conforms := conforms_name ⟨few, drawn.2⟩ fills_nil
    exact .pure ⟨conforms.1, by rintro name ⟨⟩; exact conforms.2⟩

/-- **A random document conforms**, has the number that it is given and keeps to the bounds. -/
theorem gives_randomDocument (links : 0 < shape.maxLinks) (names : 0 < shape.maxNames)
    (languages : 0 < shape.maxLanguages) (number : Nat) :
    (randomDocument source shape number).Gives fun document =>
      (Value.record document).Conforms Cardinality.Allows documentType.root.field ∧
        document.getAll "DocId" = [int (Int64.ofNat number)] ∧ shape.Bounds document := by
  refine (gives_randomLinkGroup inRange links).bind fun groups linked => ?_
  refine (inRange.gives_range names).bind fun count bounds => ?_
  refine ((gives_randomName inRange languages).times count).bind fun spoken drawn => .pure ?_
  have few : spoken.length < shape.maxNames := drawn.1 ▸ bounds.2
  have distinct : ([("DocId", [int (Int64.ofNat number)]), ("Links", groups),
    ("Name", spoken)].map (·.1)).Nodup := by simp
  have number := getAll_record distinct List.mem_cons_self
  have groups := getAll_record distinct (List.mem_cons_of_mem _ List.mem_cons_self)
  have names := getAll_record distinct
    (List.mem_cons_of_mem _ (List.mem_cons_of_mem _ List.mem_cons_self))
  refine ⟨?_, number, ?_, ?_, ?_⟩
  · refine conforms_group (by decide) (.cons ⟨rfl, rfl, ?_⟩ (.cons ⟨rfl, linked.1, ?_⟩
      (.cons ⟨rfl, trivial, ?_⟩ .nil)))
    · exact List.forall_mem_singleton.mpr (.scalar rfl)
    · exact fun value among => (linked.2 value among).1
    · exact fun value among => (drawn.2 value among).1
  · rw [names]
    exact few
  · intro links among
    rw [groups] at among
    exact (linked.2 _ among).2 links rfl
  · intro name among
    rw [names] at among
    exact (drawn.2 _ among).2 name rfl

omit inRange in
/-- The documents of a series are numbered. -/
theorem gives_randomDocuments {holds : Nat → Record → Prop}
    (gives : ∀ number, (randomDocument source shape number).Gives (holds number)) (count : Nat) :
    ∀ first, (randomDocuments source shape first count).Gives fun documents =>
      documents.length = count ∧
        ∀ i document, documents[i]? = some document → holds (first + i) document := by
  induction count with
  | zero => exact fun first => .pure ⟨rfl, by simp⟩
  | succ count ih =>
    intro first
    refine (gives first).bind fun document here => (ih (first + 1)).bind fun rest later => .pure ⟨?_, ?_⟩
    · rw [List.length_cons, later.1]
    · intro i other found
      cases i with
      | zero => exact Option.some.inj found ▸ here
      | succ i =>
        have beyond := later.2 i other found
        rwa [Nat.add_assoc, Nat.add_comm 1] at beyond

/-! ### Whole series -/

omit inRange in
/-- Staging takes a record that conforms. -/
theorem exists_stage {schema : Schema} {record : Record} (conforms : schema.Conforms record) :
    ∃ staged, schema.stage record = .ok staged :=
  ⟨_, Schema.stage_eq_ok (Field.admits_iff_conforms.mpr conforms)⟩

/-- Random records of an accepted schema are accepted. -/
theorem exists_records {schema : Schema} (accepted : schema.IsAccepted) (count : Nat) (seed : UInt64)
    (shape : RecordShape) :
    ∃ records, recordsOf? source schema count seed shape = some records ∧ records.length = count ∧
      ∀ record ∈ records, (∃ staged, schema.stage record = .ok staged) ∧
        (Value.record record).Conforms shape.Allows schema.root.field := by
  cases accepted.wellFormed with
  | group _ _ named _ each =>
    have gives : (randomFields source shape schema.fields .empty).Gives _ :=
      gives_randomFields inRange shape each
    obtain ⟨records, drawn, length, filled⟩ := (gives.times count).exists_from? (source.ofSeed seed)
    refine ⟨records, drawn, length, fun record among => ?_⟩
    obtain ⟨entries, rfl, filled⟩ := filled record among
    have conforms : (group entries).Conforms shape.Allows schema.root.field := conforms_group named filled
    exact ⟨exists_stage (conforms.mono fun _ _ => And.left), conforms⟩

/-- Random documents are accepted as documents. -/
theorem exists_documents (links : 0 < shape.maxLinks) (names : 0 < shape.maxNames)
    (languages : 0 < shape.maxLanguages) {count : Nat} (small : count < 2 ^ 63) (seed : UInt64) :
    ∃ documents, documentsOf? source count seed shape = some documents ∧ documents.length = count ∧
      ∀ (i : Nat) document, documents[i]? = some document →
        (∃ staged, documentType.stage document = .ok staged) ∧
          (∃ number : Int64, document.getAll "DocId" = [int number] ∧ number.toInt = i) ∧
          shape.Bounds document := by
  have gives := gives_randomDocument inRange links names languages
  obtain ⟨documents, drawn, length, each⟩ :=
    (gives_randomDocuments gives count 0).exists_from? (source.ofSeed seed)
  refine ⟨documents, drawn, length, fun i document found => ?_⟩
  obtain ⟨conforms, number, bounds⟩ := each i document found
  rw [Nat.zero_add] at number
  refine ⟨exists_stage conforms, ⟨_, number, ?_⟩, bounds⟩
  have inside : i < documents.length := (List.getElem?_eq_some_iff.mp found).1
  rw [length] at inside
  exact Int64.toInt_ofNat_of_lt (Nat.lt_trans inside small)

end Draws

/-- **Random records are accepted**, whatever source they are drawn from, if it keeps to its ranges.
From every seed a series of random records of an accepted schema comes out, as long as asked for.
Staging takes each of them, and in every instance of a group a repeated field has no more values than
the shape allows. A series of random documents comes out too, if no bound of the shape is zero: they
are numbered in order, staging takes them as documents, and their lists are shorter than the bounds. -/
theorem conforms_of_random {σ : Type} {source : Source σ} (inRange : source.IsInRange) :
    (∀ (schema : Schema) (count : Nat) (seed : UInt64) (shape : RecordShape), schema.IsAccepted →
      ∃ records, recordsOf? source schema count seed shape = some records ∧ records.length = count ∧
        ∀ record ∈ records, (∃ staged, schema.stage record = .ok staged) ∧
          (Value.record record).Conforms shape.Allows schema.root.field) ∧
    ∀ (count : Nat) (seed : UInt64) (shape : DocumentShape), count < 2 ^ 63 → 0 < shape.maxLinks →
      0 < shape.maxNames → 0 < shape.maxLanguages →
      ∃ schema documents, documentSchema = .ok schema ∧
        documentsOf? source count seed shape = some documents ∧ documents.length = count ∧
        ∀ (i : Nat) document, documents[i]? = some document →
          (∃ staged, schema.stage document = .ok staged) ∧
            (∃ number : Int64, document.getAll "DocId" = [int number] ∧ number.toInt = i) ∧
            shape.Bounds document := by
  refine ⟨fun schema count seed shape accepted => exists_records inRange accepted count seed shape, ?_⟩
  intro count seed shape small links names languages
  obtain ⟨documents, series⟩ := exists_documents inRange links names languages small seed
  exact ⟨documentType, documents, rfl, series⟩

/-- Two random documents from a generator, as records of their type, with three of five optional fields
present on average, and as documents, with every second one present. -/
theorem conforms_of_random_two :
    documentType.IsAccepted ∧ Generator.source.IsInRange ∧
      (∃ records, records? documentType 2 7 ⟨3, .ofRatio false 3 5⟩ = some records ∧
        records.length = 2 ∧
        ∀ record ∈ records, (∃ staged, documentType.stage record = .ok staged) ∧
          (Value.record record).Conforms (RecordShape.Allows ⟨3, .ofRatio false 3 5⟩)
            documentType.root.field) ∧
      ∃ schema documents, documentSchema = .ok schema ∧
        documents? 2 42 ⟨6, 5, 6, .ofRatio false 1 2⟩ = some documents ∧ documents.length = 2 ∧
        ∀ (i : Nat) document, documents[i]? = some document →
          (∃ staged, schema.stage document = .ok staged) ∧
            (∃ number : Int64, document.getAll "DocId" = [int number] ∧ number.toInt = i) ∧
            DocumentShape.Bounds ⟨6, 5, 6, .ofRatio false 1 2⟩ document :=
  ⟨documentType_isAccepted, Generator.isInRange_source,
    (conforms_of_random Generator.isInRange_source).1 documentType 2 7 ⟨3, .ofRatio false 3 5⟩
      documentType_isAccepted,
    (conforms_of_random Generator.isInRange_source).2 2 42 ⟨6, 5, 6, .ofRatio false 1 2⟩ (by decide)
      (by decide) (by decide) (by decide)⟩

end NestedColumns.Sample
