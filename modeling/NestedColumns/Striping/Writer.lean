/-
Writing values and absences of single fields.

A present value of a leaf becomes one row of its column at the definition level of the leaf. The
absence of a field becomes one row without a value in the column of every leaf at or below it.
-/

import NestedColumns.Striping.Written

namespace NestedColumns

namespace Field

mutual

/-- A row for the column of every leaf at or below a field, `column` being the first of them. -/
def spread (row : Row) (column : Nat) : Field → List (Nat × Row)
  | .leaf .. => [(column, row)]
  | .group _ children => spreadAll row column children
termination_by structural field => field

/-- A row for the column of every leaf at or below a list of fields. -/
def spreadAll (row : Row) (column : Nat) : List Field → List (Nat × Row)
  | [] => []
  | field :: fields => field.spread row column ++ spreadAll row (column + field.leafCount) fields
termination_by structural fields => fields

end

end Field

namespace Node

/-- The absence of a field, at the given levels. -/
def writeNull (node : Node) (repetition definition : Level) : Written :=
  { rows := node.field.spread ⟨none, repetition, definition⟩ node.column }

/-- A present value of a leaf. -/
def writeValue (node : Node) (value : Value) (repetition : Level) : Written :=
  match node.type? with
  | none => .stop (.schemaMismatch node.pathText .scalarForGroup)
  | some type =>
    if value.kind = .scalar type then
      .row node.column ⟨some value, repetition, node.maxDefinition⟩
    else .stop (.schemaMismatch node.pathText (.typeMismatch type value.kind))

/-- The definition level that stands for the absence of a field from a present parent. -/
def absentLevel (node : Node) : Level :=
  Path.absentLevel node.path

end Node

namespace Schema

/-- How many columns a record of this type is written to. -/
def columnCount (schema : Schema) : Nat :=
  schema.leafIds.length

/-- The node that rows of a field are written through. -/
def writer (schema : Schema) (id : FieldId) : Except Fault Node :=
  match schema.node? id with
  | some node => .ok node
  | none => .error (.schemaMismatch (Fault.fieldNumber id) .noWriter)

/-- The node of one of the immediate children of a field. -/
def childWriter (schema : Schema) (parent child : FieldId) : Except Fault Node := do
  let above ← schema.writer parent
  if (above.children.map (·.id)).contains child then schema.writer child
  else .error (.schemaMismatch (schema.fieldText child) (.notChildOf (schema.fieldText parent)))

/-- A present value of the field with the given number. -/
def writeValue (schema : Schema) (id : FieldId) (value : Value) (repetition : Level) : Written :=
  match schema.writer id with
  | .ok node => node.writeValue value repetition
  | .error fault => .stop fault

/-- The absence of the field with the given number, at the given levels. -/
def writeNull (schema : Schema) (id : FieldId) (repetition definition : Level) : Written :=
  match schema.writer id with
  | .ok node => node.writeNull repetition definition
  | .error fault => .stop fault

end Schema

end NestedColumns
