/-
Shredding: a record taken apart into rows of columns.

Every occurrence of a leaf in the record becomes one row, and every absence of a field from a
present parent one row in each column at or below that field. The first value of a field within an
instance of its parent inherits the repetition level of the instance, each further value has the
repetition level of the field itself.
-/

import NestedColumns.Striping.Writer

namespace NestedColumns

namespace Field

/-- A name under a path, as faults report it. -/
def nameUnder (path : Path) (name : String) : String :=
  if path.isEmpty then name else Path.text path ++ "." ++ name

/-- The first field of a record, in the order of names, that is not among the given fields. -/
def unknownName? (fields : List Field) (record : Record) : Option String :=
  (record.fields.find? fun entry => !fields.any (·.label.name == entry.1)).map (·.1)

mutual

/-- One value of the field at `path`, whose first column is `column`, with repetition level
`level`. -/
def shred (path : Path) (column : Nat) (level : Level) : Field → Value → Written
  | .leaf .., .record _ => .stop (.schemaMismatch (Path.text path) .recordForScalar)
  | .leaf label type, .scalar content =>
    Node.writeValue ⟨path, column, .leaf label type⟩ (.scalar content) level
  | .group label children, .scalar content =>
    Node.writeValue ⟨path, column, .group label children⟩ (.scalar content) level
  | .group _ children, .record record =>
    match unknownName? children record with
    | some name => .stop (.schemaMismatch (nameUnder path name) .unknownField)
    | none => shredAll path column level children record
termination_by structural field => field

/-- The values that a record has for the given fields under `path`. -/
def shredAll (path : Path) (column : Nat) (level : Level) : List Field → Record → Written
  | [], _ => {}
  | field :: fields, record =>
    let label := field.label
    let below := path ++ [label]
    let values := record.getAll label.name
    let here : Written :=
      if values.isEmpty then
        if label.cardinality.mayBeAbsent then
          Node.writeNull ⟨below, column, field⟩ level (Path.absentLevel below)
        else .stop (.schemaMismatch (Path.text below) .requiredMissing)
      else if 1 < values.length && !label.cardinality.isRepeated then
        .stop (.schemaMismatch (Path.text below) (.tooManyValues values.length))
      else
        .inOrder (values.mapIdx fun index value =>
          field.shred below column (if index = 0 then level else Path.repetitionLevel below) value)
    here.andThen (shredAll path (column + field.leafCount) level fields record)
termination_by structural fields => fields

end

end Field

/-- The rows of a record. -/
def Schema.shred (schema : Schema) (record : Record) : Written :=
  schema.root.field.shred [] 0 0 (.record record)

end NestedColumns
