/-
The text of a schema: one line per field, the fields of a group indented by two between braces.
-/

import NestedColumns.Schema.Basic

namespace NestedColumns

mutual

/-- The lines of a field, each with its end. -/
def Field.text (indent : Nat) : Field → String
  | .leaf label type =>
    let blanks := String.ofList (List.replicate indent ' ')
    s!"{blanks}{label.cardinality.text} {type.text} {label.name};\n"
  | .group label children =>
    let blanks := String.ofList (List.replicate indent ' ')
    s!"{blanks}{label.cardinality.text} group {label.name} \x7b\n" ++
      Field.texts (indent + 2) children ++ s!"{blanks}\x7d\n"
termination_by structural field => field

/-- The lines of a list of fields. -/
def Field.texts (indent : Nat) : List Field → String
  | [] => ""
  | field :: fields => field.text indent ++ Field.texts indent fields
termination_by structural fields => fields

end

/-- The lines of a schema. -/
def Schema.text (schema : Schema) : String :=
  s!"message {schema.name} \x7b\n" ++ Field.texts 2 schema.fields ++ "\x7d\n"

end NestedColumns
