/-
Erasure: what is left of a record when only a projection of it is stored.

Fields that the projection does not cover are dropped at every depth. An instance of a covered group
is kept even if nothing is left in it, and a value that is not of the shape of its field is kept as
it is.
-/

import NestedColumns.Projection.Basic
import NestedColumns.Record.Basic

namespace NestedColumns

mutual

/-- What is left of one value of a covered field. -/
def Field.eraseValue (covered : FieldId → Bool) : Field → Value → Value
  | .group _ children, .record record =>
    .record (Field.eraseFields covered children record Record.empty)
  | _, value => value
termination_by structural field => field

/-- What is left of the given fields of `record`, added to `kept`. -/
def Field.eraseFields (covered : FieldId → Bool) : List Field → Record → Record → Record
  | [], _, kept => kept
  | field :: fields, record, kept =>
    let name := field.label.name
    let more :=
      if covered field.label.id then
        kept.append name ((record.getAll name).map fun value => field.eraseValue covered value)
      else kept
    Field.eraseFields covered fields record more
termination_by structural fields => fields

end

/-- A record without the fields that a projection does not cover. -/
def Projection.erase (projection : Projection) (schema : Schema) (record : Record) : Record :=
  Field.eraseFields (projection.covers schema) schema.fields record Record.empty

end NestedColumns
