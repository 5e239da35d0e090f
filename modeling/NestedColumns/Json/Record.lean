/-
Records as JSON objects.

A repeated field is an array, a group an object, and `null` stands for absence. Writing a record
needs no schema: a field with one value is written bare and one with several as an array. Reading is
guided by the schema and refuses keys that it does not know, arrays where a field is not repeated
and values of another type; a bare value for a repeated field is taken as its only one.
-/

import NestedColumns.Json.Text
import NestedColumns.Record.Basic
import NestedColumns.Schema.Basic

namespace NestedColumns

/-! ### Writing -/

/-- A scalar as a JSON value. -/
def Scalar.toJson : Scalar → Json
  | .boolean value => .boolean value
  | .int64 value => .ofInt64 value
  | .float64 value => .ofFloat64 value
  | .string value => .string value

mutual

/-- A value as a JSON value. -/
def Value.toJson : Value → Json
  | .scalar content => content.toJson
  | .record content => content.toJson
termination_by structural value => value

/-- A record as a JSON object. -/
def Record.toJson : Record → Json
  | ⟨entries⟩ => .object (Record.jsonMembers entries)
termination_by structural record => record

/-- The fields that hold values as members of an object. -/
def Record.jsonMembers : List (String × List Value) → List (String × Json)
  | [] => []
  | (name, values) :: rest =>
    match Value.listToJson values with
    | [] => Record.jsonMembers rest
    | [single] => (name, single) :: Record.jsonMembers rest
    | several => (name, .array several) :: Record.jsonMembers rest
termination_by structural entries => entries

def Value.listToJson : List Value → List Json
  | [] => []
  | value :: values => value.toJson :: Value.listToJson values
termination_by structural values => values

end

/-! ### Reading -/

/-- Why a JSON value is not a record of a type. -/
inductive DecodeFault where
  | notDocuments
  | notObject (json : Json)
  | unknownField (key : String)
  | notRepeated (key : String)
  | typeMismatch (key : String) (expected : ScalarType) (json : Json)
  /-- The document at this index is at fault. -/
  | inDocument (index : Nat) (fault : DecodeFault)

/-- The text of a fault, from the outermost value to the innermost. -/
def DecodeFault.message : DecodeFault → String
  | .notDocuments => "expected a JSON array of documents"
  | .notObject json => s!"expected a JSON object, got {json.text}"
  | .unknownField key => s!"unknown field '{key}'"
  | .notRepeated key => s!"field '{key}' is not repeated"
  | .typeMismatch key expected json =>
    s!"field '{key}': expected {expected.text}, got {json.text}"
  | .inDocument index fault => s!"document #{index}: {fault.message}"

/-- A JSON value as a scalar of a type. -/
def ScalarType.ofJson? : ScalarType → Json → Option Scalar
  | .boolean, json => json.asBoolean?.map .boolean
  | .int64, json => json.asInt64?.map .int64
  | .float64, json => json.asFloat64?.map .float64
  | .string, json => json.asString?.map .string

namespace Field

/-- The value of a field that is given by anything but an object. -/
def valueOfPlain (field : Field) (json : Json) : Except DecodeFault Value :=
  match field with
  | .leaf label type =>
    match type.ofJson? json with
    | some scalar => .ok (.scalar scalar)
    | none => .error (.typeMismatch label.name type json)
  | .group .. => .error (.notObject json)

mutual

/-- All values of a field that are given by one member of an object. -/
def valuesOfJson (field : Field) : Json → Except DecodeFault (List Value)
  | .null => .ok []
  | .array items =>
    if field.label.cardinality.isRepeated then valuesOfItems field items
    else .error (.notRepeated field.label.name)
  | .object members =>
    match field with
    | .leaf label type => .error (.typeMismatch label.name type (.object members))
    | .group _ children =>
      (recordOfMembers children members .empty).map fun record => [.record record]
  | json => (field.valueOfPlain json).map fun value => [value]
termination_by structural json => json

/-- The values of a field that are given by the items of an array. -/
def valuesOfItems (field : Field) : List Json → Except DecodeFault (List Value)
  | [] => .ok []
  | item :: items => do
    let value ← valueOfItem field item
    let values ← valuesOfItems field items
    return value :: values
termination_by structural items => items

/-- The value of a field that is given by an item of an array. -/
def valueOfItem (field : Field) : Json → Except DecodeFault Value
  | .object members =>
    match field with
    | .leaf label type => .error (.typeMismatch label.name type (.object members))
    | .group _ children => (recordOfMembers children members .empty).map .record
  | json => field.valueOfPlain json
termination_by structural json => json

/-- `record` with the values of the given fields that the members of an object give. -/
def recordOfMembers (fields : List Field) :
    List (String × Json) → Record → Except DecodeFault Record
  | [], record => .ok record
  | (key, json) :: members, record =>
    match fields.find? (·.label.name == key) with
    | none => .error (.unknownField key)
    | some field => do
      let values ← valuesOfJson field json
      recordOfMembers fields members (record.append key values)
termination_by structural members => members

end

end Field

namespace Schema

/-- The record of this type that a JSON object stands for. -/
def recordOfJson (schema : Schema) : Json → Except DecodeFault Record
  | .object members => Field.recordOfMembers schema.fields members .empty
  | json => .error (.notObject json)

/-- The records of this type that a JSON array stands for. -/
def recordsOfJson (schema : Schema) : Json → Except DecodeFault (List Record)
  | .array items => items.zipIdx.mapM fun (item, index) =>
    (schema.recordOfJson item).mapError (.inDocument index)
  | _ => .error .notDocuments

end Schema

end NestedColumns
