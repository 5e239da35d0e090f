/-
Nested records.

A value is a scalar or a record, and a record gives to each name a list of values. The entries of a
record stand in ascending order of their names. An entry may hold an empty list; this is the same as
no entry to every reader but `remove?`, and `fields` shows only the entries that hold a value.
-/

import NestedColumns.Entries
import NestedColumns.Record.Scalar

namespace NestedColumns

mutual

/-- The value of a field: a scalar, or one instance of a group. -/
inductive Value where
  | scalar (content : Scalar)
  | record (content : Record)

/-- The lists of values of named fields. -/
structure Record where
  entries : List (String × List Value)

end

namespace Value

/-- What kind of thing a value is. -/
def kind : Value → ValueKind
  | .scalar content => .scalar content.type
  | .record _ => .record

def asBoolean? : Value → Option Bool
  | .scalar (.boolean value) => some value
  | _ => none

def asInt64? : Value → Option Int64
  | .scalar (.int64 value) => some value
  | _ => none

def asFloat64? : Value → Option Binary64
  | .scalar (.float64 value) => some value
  | _ => none

def asString? : Value → Option String
  | .scalar (.string value) => some value
  | _ => none

def asRecord? : Value → Option Record
  | .record content => some content
  | _ => none

/-- The bare value of a scalar of the given type. -/
def toCarrier? (type : ScalarType) : Value → Option type.Carrier
  | .scalar content => content.toCarrier? type
  | .record _ => none

end Value

namespace Record

/-! ### Reading -/

/-- The record without entries. -/
def empty : Record := ⟨[]⟩

/-- All values of a field; a field without an entry has none. -/
def getAll (record : Record) (name : String) : List Value :=
  (record.entries.lookup name).getD []

/-- The first value of a field. -/
def get? (record : Record) (name : String) : Option Value :=
  (record.getAll name).head?

/-- The entries that hold at least one value. -/
def fields (record : Record) : List (String × List Value) :=
  record.entries.filter fun entry => !entry.2.isEmpty

/-- A field holds a value. -/
def contains (record : Record) (name : String) : Bool :=
  !(record.getAll name).isEmpty

/-- How many fields hold a value. -/
def size (record : Record) : Nat :=
  record.fields.length

def isEmpty (record : Record) : Bool :=
  record.size == 0

/-! ### Changing -/

/-- The record with the values of a field changed; a field without an entry gets one. -/
def change (record : Record) (name : String) (update : List Value → List Value) : Record :=
  ⟨Entries.change name (fun values? => update (values?.getD [])) record.entries⟩

/-- The record with one value in place of all values of a field. -/
def set (record : Record) (name : String) (value : Value) : Record :=
  record.change name fun _ => [value]

/-- The record with one more value at the end of a field. -/
def push (record : Record) (name : String) (value : Value) : Record :=
  record.change name (· ++ [value])

/-- The record with more values at the end of a field; no values make no entry. -/
def append (record : Record) (name : String) (values : List Value) : Record :=
  if values.isEmpty then record else record.change name (· ++ values)

/-- The record with an entry for a field, which is empty if there was none. -/
def touch (record : Record) (name : String) : Record :=
  record.change name id

/-- The values of the entry of a field, if it has one, and the record without that entry. -/
def remove? (record : Record) (name : String) : Option (List Value) × Record :=
  (record.entries.lookup name, ⟨Entries.remove name record.entries⟩)

/-- The values of the changed field. -/
theorem getAll_change_self {record : Record} {name : String} {update : List Value → List Value}
    (ordered : Entries.IsOrdered record.entries) :
    (record.change name update).getAll name = update (record.getAll name) := by
  simp [getAll, change, Entries.lookup_change_self ordered]

/-- No other field is touched. -/
theorem getAll_change_of_ne {record : Record} {name other : String}
    {update : List Value → List Value} (differs : other ≠ name) :
    (record.change name update).getAll other = record.getAll other := by
  simp [getAll, change, Entries.lookup_change_of_ne differs]

/-! ### Nested instances -/

/-- The way from a record to an instance nested in it: at each step a field and which of its values
is entered. -/
abbrev Place := List (String × Nat)

/-- The instance at a place, or the first step that does not lead to a record. -/
def instanceAt : Place → Record → Except (String × Nat) Record
  | [], record => .ok record
  | (name, index) :: rest, record =>
    match (record.getAll name)[index]? with
    | some (.record inner) => instanceAt rest inner
    | _ => .error (name, index)

/-- The record with the instance at a place changed. Each step makes an entry for its field, also on
a way that leads nowhere. -/
def changeAt : Place → (Record → Record) → Record → Record
  | [], update, record => update record
  | (name, index) :: rest, update, record =>
    record.change name fun values => values.modify index fun
      | .record inner => .record (changeAt rest update inner)
      | value => value

/-- The record with one more value of a field in the instance at a place, and the index of that
value; or the first step of the place that does not lead to a record. -/
def pushAt (place : Place) (name : String) (value : Value) (record : Record) :
    Except (String × Nat) (Record × Nat) := do
  let innermost ← instanceAt place record
  return (changeAt place (·.push name value) record, (innermost.getAll name).length)

end Record

end NestedColumns
