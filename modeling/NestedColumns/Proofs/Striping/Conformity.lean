/-
Records that conform to a schema.

`Value.Conforms allowed` says which values a field takes when `allowed` says how many values a field of
each cardinality may have: a leaf takes a scalar of its type, and a group takes a record in which every
name that holds a value is that of a child, every child has as many values as it may have, and each of
them conforms to the child. `Value.Violates` says where a value does not conform and in which way.

* `Field.admits_iff_conforms` — what shredding asks of a value on its way down is that it conforms, with
  the counts that the cardinalities allow.
* `Field.shred_emits` — **what shredding writes, whether it ends with a fault or not**: every row fits
  the column of a leaf at or below the field, and a fault names a violation.
* `Schema.stage_iff_conforms` — staging takes exactly the records that conform, and refuses every other
  one for a violation that the fault names.
-/

import NestedColumns.Proofs.Striping.Stripe

namespace NestedColumns

/-- **A value that conforms to a field.** Nothing is said of the order of the entries of a record, and
an entry without values counts for nothing. -/
inductive Value.Conforms (allowed : Cardinality → Nat → Prop) : Field → Value → Prop
  | scalar {label : Label} {type : ScalarType} {content : Scalar} (typed : content.type = type) :
      Conforms allowed (.leaf label type) (.scalar content)
  | record {label : Label} {children : List Field} {record : Record}
      (known : ∀ entry ∈ record.fields, ∃ child ∈ children, child.label.name = entry.1)
      (counts : ∀ child ∈ children,
        allowed child.label.cardinality (record.getAll child.label.name).length)
      (each : ∀ child ∈ children, ∀ value ∈ record.getAll child.label.name,
        value.Conforms allowed child) :
      Conforms allowed (.group label children) (.record record)

/-- A value conforms also where more counts are allowed. -/
theorem Value.Conforms.mono {allowed wider : Cardinality → Nat → Prop} {field : Field} {value : Value}
    (conforms : value.Conforms allowed field)
    (implies : ∀ cardinality count, allowed cardinality count → wider cardinality count) :
    value.Conforms wider field := by
  induction conforms with
  | scalar typed => exact .scalar typed
  | record known counts _ ih =>
    exact .record known (fun child listed => implies _ _ (counts child listed)) ih

/-- A record conforms to a schema: in it, and in every instance of a group below it, a required field
has one value and an optional one at most one. -/
def Schema.Conforms (schema : Schema) (record : Record) : Prop :=
  (Value.record record).Conforms Cardinality.Allows schema.root.field

/-- **A place where a value of the field at a path does not conform**, by its dotted name, and what is
wrong there. -/
inductive Value.Violates : Path → Field → Value → String → MismatchReason → Prop
  | recordForScalar {path : Path} {label : Label} {type : ScalarType} {record : Record} :
      Violates path (.leaf label type) (.record record) (Path.text path) .recordForScalar
  | scalarForGroup {path : Path} {label : Label} {children : List Field} {content : Scalar} :
      Violates path (.group label children) (.scalar content) (Path.text path) .scalarForGroup
  | typeMismatch {path : Path} {label : Label} {type : ScalarType} {content : Scalar}
      (differs : content.type ≠ type) :
      Violates path (.leaf label type) (.scalar content) (Path.text path)
        (.typeMismatch type (.scalar content.type))
  | unknownField {path : Path} {label : Label} {children : List Field} {record : Record}
      {entry : String × List Value} (member : entry ∈ record.fields)
      (unknown : ∀ child ∈ children, child.label.name ≠ entry.1) :
      Violates path (.group label children) (.record record) (Field.nameUnder path entry.1)
        .unknownField
  | requiredMissing {path : Path} {label : Label} {children : List Field} {record : Record}
      {child : Field} (member : child ∈ children) (required : child.label.cardinality = .required)
      (none : record.getAll child.label.name = []) :
      Violates path (.group label children) (.record record) (Path.text (path ++ [child.label]))
        .requiredMissing
  | tooManyValues {path : Path} {label : Label} {children : List Field} {record : Record}
      {child : Field} (member : child ∈ children)
      (single : child.label.cardinality.isRepeated = false)
      (several : 1 < (record.getAll child.label.name).length) :
      Violates path (.group label children) (.record record) (Path.text (path ++ [child.label]))
        (.tooManyValues (record.getAll child.label.name).length)
  | nested {path : Path} {label : Label} {children : List Field} {record : Record} {child : Field}
      {value : Value} {place : String} {reason : MismatchReason} (member : child ∈ children)
      (among : value ∈ record.getAll child.label.name)
      (violates : value.Violates (path ++ [child.label]) child place reason) :
      Violates path (.group label children) (.record record) place reason

namespace Field

mutual

/-- **What shredding asks of a value** is that it conforms to its field. -/
theorem admits_iff_conforms : ∀ {field : Field} {value : Value},
    field.Admits value ↔ value.Conforms Cardinality.Allows field
  | .leaf label type, .scalar content => by
    rw [Admits, Value.kind, ValueKind.scalar.injEq]
    constructor
    · exact .scalar
    · intro conforms
      cases conforms with
      | scalar typed => exact typed
  | .leaf label type, .record record => by
    rw [Admits, Value.kind]
    exact iff_of_false nofun nofun
  | .group label children, .scalar content => by
    rw [Admits]
    exact iff_of_false id nofun
  | .group label children, .record record => by
    rw [Admits, unknownName?_eq_none_iff, admitsAll_iff_conforms]
    constructor
    · rintro ⟨known, below⟩
      exact .record known (fun child member => (below child member).1)
        fun child member => (below child member).2
    · intro conforms
      cases conforms with
      | record known counts each =>
        exact ⟨known, fun child member => ⟨counts child member, each child member⟩⟩

theorem admitsAll_iff_conforms : ∀ {fields : List Field} {record : Record},
    AdmitsAll fields record ↔ ∀ field ∈ fields,
      field.label.cardinality.Allows (record.getAll field.label.name).length ∧
        ∀ value ∈ record.getAll field.label.name, value.Conforms Cardinality.Allows field
  | [], record => by simp [AdmitsAll]
  | field :: fields, record => by
    have here : (∀ value ∈ record.getAll field.label.name, field.Admits value) ↔
        ∀ value ∈ record.getAll field.label.name, value.Conforms Cardinality.Allows field :=
      forall₂_congr fun _ _ => admits_iff_conforms
    rw [AdmitsAll, admitsAll_iff_conforms, List.forall_mem_cons, here]

end

end Field

/-- A value with a violation does not conform. -/
theorem Value.Violates.not_conforms {path : Path} {field : Field} {value : Value} {place : String}
    {reason : MismatchReason} (violates : value.Violates path field place reason) :
    ¬ value.Conforms Cardinality.Allows field := by
  induction violates with
  | recordForScalar => exact nofun
  | scalarForGroup => exact nofun
  | typeMismatch differs =>
    rintro ⟨typed⟩
    exact differs typed
  | unknownField member unknown =>
    intro conforms
    cases conforms with
    | record known _ _ =>
      obtain ⟨child, among, named⟩ := known _ member
      exact unknown child among named
  | requiredMissing member required none =>
    intro conforms
    cases conforms with
    | record _ counts _ =>
      have one := counts _ member
      rw [required, none] at one
      exact absurd one (by simp [Cardinality.Allows])
  | tooManyValues member single several =>
    intro conforms
    cases conforms with
    | record _ counts _ =>
      refine (Cardinality.allows_iff (Nat.zero_lt_of_lt several)).mp (counts _ member) ?_
      simp [single, several]
  | nested member among _ ih =>
    intro conforms
    cases conforms with
    | record _ _ each => exact ih (each _ member _ among)

/-! ### What is written -/

namespace Written

/-- A writing into the columns of the given leaves: every row fits the leaf of its column, and a fault
is a mismatch that names one of the given violations. Nothing is said of how far the writing gets. -/
structure Emits (written : Written) (leaves : List Node)
    (violation : String → MismatchReason → Prop) : Prop where
  fits : ∀ entry ∈ written.rows, ∃ leaf ∈ leaves, leaf.column = entry.1 ∧ entry.2.Fits leaf
  names : ∀ fault, written.fault = some fault →
    ∃ place reason, fault = .schemaMismatch place reason ∧ violation place reason

variable {leaves : List Node} {violation : String → MismatchReason → Prop}

theorem Emits.nothing : Written.Emits {} leaves violation where
  fits := fun _ none => absurd none List.not_mem_nil
  names := nofun

theorem Emits.stop {place : String} {reason : MismatchReason} (violates : violation place reason) :
    (Written.stop (.schemaMismatch place reason)).Emits leaves violation where
  fits := fun _ none => absurd none List.not_mem_nil
  names := by
    rintro fault ⟨⟩
    exact ⟨place, reason, rfl, violates⟩

theorem Emits.mono {written : Written} {leaves' : List Node}
    {violation' : String → MismatchReason → Prop} (subset : leaves ⊆ leaves')
    (weaker : ∀ place reason, violation place reason → violation' place reason)
    (emits : written.Emits leaves violation) : written.Emits leaves' violation' where
  fits := by
    intro entry member
    obtain ⟨leaf, listed, fits⟩ := emits.fits entry member
    exact ⟨leaf, subset listed, fits⟩
  names := by
    intro fault stopped
    obtain ⟨place, reason, same, violates⟩ := emits.names fault stopped
    exact ⟨place, reason, same, weaker place reason violates⟩

theorem Emits.andThen {first second : Written} (emits : first.Emits leaves violation)
    (next : second.Emits leaves violation) : (first.andThen second).Emits leaves violation := by
  unfold Written.andThen
  cases ended : first.fault with
  | some fault => exact emits
  | none =>
    refine ⟨fun entry member => ?_, next.names⟩
    rcases List.mem_append.mp member with here | later
    · exact emits.fits entry here
    · exact next.fits entry later

theorem Emits.inOrder {writings : List Written}
    (each : ∀ written ∈ writings, written.Emits leaves violation) :
    (Written.inOrder writings).Emits leaves violation := by
  induction writings with
  | nil => exact .nothing
  | cons written writings ih =>
    rw [List.forall_mem_cons] at each
    exact each.1.andThen (ih each.2)

end Written

namespace Field

/-- The absence of a field that may be absent is written in rows that fit. -/
theorem writeNull_emits {path : Path} {column : Nat} {level : Level} {field : Field}
    {violation : String → MismatchReason → Prop}
    (absent : field.label.cardinality.mayBeAbsent = true) (within : level ≤ Path.repetitionLevel path) :
    (Node.writeNull ⟨path ++ [field.label], column, field⟩ level
      (Path.absentLevel (path ++ [field.label]))).Emits (field.leaves (path ++ [field.label]) column)
      violation where
  fits := by
    intro entry member
    unfold Node.writeNull at member
    rw [spread_eq _ (path ++ [field.label])] at member
    obtain ⟨leaf, below, rfl⟩ := List.mem_map.mp member
    exact ⟨leaf, below, rfl, Row.fits_absence absent within below⟩
  names := nofun

/-- A scalar is written in a row that fits, if it is a value of the leaf. -/
theorem writeValue_emits {path : Path} {column : Nat} {level : Level} (field : Field)
    (content : Scalar) (within : level ≤ Path.repetitionLevel path) :
    (Node.writeValue ⟨path, column, field⟩ (.scalar content) level).Emits (field.leaves path column)
      ((Value.scalar content).Violates path field) := by
  cases field with
  | group label children => exact .stop .scalarForGroup
  | leaf label type =>
    by_cases typed : content.type = type
    · have same : (Value.scalar content).kind = .scalar type := congrArg ValueKind.scalar typed
      have written : Node.writeValue ⟨path, column, .leaf label type⟩ (.scalar content) level =
          .row column ⟨some (.scalar content), level, Path.definitionLevel path⟩ := if_pos same
      have fits : (Row.mk (some (.scalar content)) level (Path.definitionLevel path)).Fits
          ⟨path, column, .leaf label type⟩ :=
        ⟨within, .inr ⟨content, rfl, congrArg some typed.symm, rfl⟩⟩
      rw [written]
      refine ⟨fun entry member => ?_, nofun⟩
      rw [List.mem_singleton.mp member]
      exact ⟨_, List.mem_singleton_self _, rfl, fits⟩
    · have differ : ¬ (Value.scalar content).kind = .scalar type :=
        fun same => typed (ValueKind.scalar.inj same)
      have stopped : Node.writeValue ⟨path, column, .leaf label type⟩ (.scalar content) level =
          .stop (.schemaMismatch (Path.text path) (.typeMismatch type (.scalar content.type))) :=
        if_neg differ
      rw [stopped]
      exact .stop (.typeMismatch typed)

mutual

/-- **Shredding a value writes rows that fit**, and stops only at a violation. -/
theorem shred_emits {path : Path} {column : Nat} {level : Level} : ∀ {field : Field} (value : Value),
    level ≤ Path.repetitionLevel path →
    (field.shred path column level value).Emits (field.leaves path column)
      (value.Violates path field)
  | .leaf label type, .record record, _ => .stop .recordForScalar
  | .leaf label type, .scalar content, within => by
    rw [shred]
    exact writeValue_emits (.leaf label type) content within
  | .group label children, .scalar content, within => by
    rw [shred]
    exact writeValue_emits (.group label children) content within
  | .group label children, .record record, within => by
    rw [shred, leaves_group]
    cases unknown : unknownName? children record with
    | none => exact shredAll_emits record within (List.Subset.refl children)
    | some name =>
      unfold unknownName? at unknown
      obtain ⟨entry, found, rfl⟩ := Option.map_eq_some_iff.mp unknown
      refine .stop (.unknownField (List.mem_of_find?_eq_some found) fun child member => ?_)
      have foreign := List.find?_some found
      simp only [Bool.not_eq_true', List.any_eq_false, beq_iff_eq] at foreign
      exact foreign child member

theorem shredAll_emits {path : Path} {column : Nat} {level : Level} {label : Label}
    {children : List Field} : ∀ {fields : List Field} (record : Record),
    level ≤ Path.repetitionLevel path → fields ⊆ children →
    (shredAll path column level fields record).Emits (leavesAll path column fields)
      ((Value.record record).Violates path (.group label children))
  | [], record, _, _ => by
    rw [shredAll]
    exact .nothing
  | field :: fields, record, within, among => by
    rw [List.cons_subset] at among
    rw [shredAll, leavesAll_cons]
    refine .andThen (.mono (List.subset_append_left _ _) (fun _ _ => id) ?_)
      (.mono (List.subset_append_right _ _) (fun _ _ => id)
        (shredAll_emits record within among.2))
    generalize valuesEq : record.getAll field.label.name = values
    cases values with
    | nil =>
      rw [List.isEmpty_nil, if_pos rfl]
      by_cases absent : field.label.cardinality.mayBeAbsent = true
      · rw [if_pos absent]
        exact writeNull_emits absent within
      · rw [if_neg absent]
        refine .stop (.requiredMissing among.1 ?_ valuesEq)
        cases kind : field.label.cardinality <;> simp_all [Cardinality.mayBeAbsent]
    | cons first more =>
      rw [List.isEmpty_cons, if_neg Bool.false_ne_true]
      by_cases tooMany : (1 < (first :: more).length && !field.label.cardinality.isRepeated) = true
      · rw [if_pos tooMany, ← valuesEq]
        rw [← valuesEq] at tooMany
        simp only [Bool.and_eq_true, decide_eq_true_eq, Bool.not_eq_true'] at tooMany
        exact .stop (.tooManyValues among.1 tooMany.2 tooMany.1)
      · rw [if_neg tooMany]
        refine .inOrder fun written member => ?_
        obtain ⟨index, inside, rfl⟩ := List.mem_mapIdx.mp member
        have value : (first :: more)[index] ∈ record.getAll field.label.name := by
          rw [valuesEq]
          exact List.getElem_mem inside
        have further := Path.repetitionLevel_le_of_isPrefix (List.prefix_append path [field.label])
        refine .mono (List.Subset.refl _) (fun _ _ violates => .nested among.1 value violates)
          (shred_emits _ ?_)
        by_cases start : index = 0
        · rw [if_pos start]
          exact Nat.le_trans within further
        · rw [if_neg start]

end

end Field

namespace Schema

/-- **Whatever record is shredded**, its rows fit the columns of the schema, and the fault, if there is
one, names a violation. -/
theorem shred_emits (schema : Schema) (record : Record) :
    (schema.shred record).Emits schema.leaves
      ((Value.record record).Violates [] schema.root.field) := by
  have emits : (schema.root.field.shred [] 0 0 (.record record)).Emits
      (schema.root.field.leaves [] 0) ((Value.record record).Violates [] schema.root.field) :=
    Field.shred_emits (.record record) (Nat.le_refl 0)
  exact emits

/-- **Staging takes exactly the records that conform to the schema.** Every other record is refused
with a mismatch, whatever its names, kinds and nesting are, and the fault names a place where the
record does not conform. -/
theorem stage_iff_conforms (schema : Schema) (record : Record) :
    ((∃ staged, schema.stage record = .ok staged) ↔ schema.Conforms record) ∧
      ((∃ staged, schema.stage record = .ok staged) ∨
        ∃ place reason, schema.stage record = .error (.schemaMismatch place reason) ∧
          (Value.record record).Violates [] schema.root.field place reason) := by
  have asked : schema.Admits record ↔ schema.Conforms record := Field.admits_iff_conforms
  rw [← asked]
  refine ⟨⟨?_, fun admitted => ⟨_, stage_eq_ok admitted⟩⟩, ?_⟩
  · rintro ⟨staged, accepted⟩
    exact (stage_eq_ok_iff.mp accepted).1
  · cases ended : (schema.shred record).fault with
    | none => exact .inl ⟨_, stage_eq_ok (shred_meets.accepts.mp ended)⟩
    | some fault =>
      obtain ⟨place, reason, rfl, violates⟩ := (schema.shred_emits record).names fault ended
      refine .inr ⟨place, reason, ?_, violates⟩
      unfold stage
      rw [into_stage, ended]

end Schema

/-- A document with a language without its code, after one with a code. -/
def Sample.brokenDocument : Record :=
  record
    [ ("DocId", [int 40]),
      ("Name",
        [ group
            [ ("Language",
                [ group [("Code", [text "en"])],
                  group [("Country", [text "us"])] ]) ] ]) ]

example : (Sample.documentType.shred Sample.brokenDocument).rows.length = 5 ∧
    (Sample.documentType.shred Sample.brokenDocument).fault =
      some (.schemaMismatch "Name.Language.Code" .requiredMissing) := ⟨rfl, rfl⟩

end NestedColumns
