/-
The faults of the store.

A fault says what it is about (the path of a field, a column, an argument) and carries its reason as
a value. There are five classes: a record or projection that does not fit the schema, a read past
the end of a column, a malformed schema, an argument outside its domain, and stored rows that no
record can have produced. All wording is in this module; `Fault.message` is the complete text.
-/

import NestedColumns.Schema.Kind

namespace NestedColumns

/-! ### Reasons -/

/-- Why a record, a row or a selection of fields does not fit the schema. -/
inductive MismatchReason where
  /-- The schema of this name has no node with the given number. -/
  | notInSchema (schema : String)
  /-- There is no place to write rows of the given field to. -/
  | noWriter
  /-- The field is not one of the immediate children of the field with this path. -/
  | notChildOf (parent : String)
  | groupProjected
  | projectedTwice
  | noSuchField
  | notLeaf
  | unknownField
  | requiredMissing
  /-- A field that is not repeated holds this many values. -/
  | tooManyValues (count : Nat)
  | recordForScalar
  | scalarForGroup
  | typeMismatch (expected : ScalarType) (found : ValueKind)
  /-- The values of a column did not take a value. -/
  | notStored
  /-- A reason in the caller's own words. -/
  | stated (text : String)
  deriving DecidableEq

def MismatchReason.message : MismatchReason → String
  | .notInSchema schema => s!"not part of schema '{schema}'"
  | .noWriter => "no writer for this field"
  | .notChildOf parent => s!"not a child of '{parent}'"
  | .groupProjected => "only leaf fields can be projected"
  | .projectedTwice => "field is projected more than once"
  | .noSuchField => "no such field"
  | .notLeaf => "not a leaf field"
  | .unknownField => "field is not part of the schema"
  | .requiredMissing => "required field is missing"
  | .tooManyValues count => s!"{count} values for a non-repeated field"
  | .recordForScalar => "a record cannot be written to a scalar field"
  | .scalarForGroup => "a scalar cannot be written to a group"
  | .typeMismatch expected found => s!"expected {expected.text}, got {found.text}"
  | .notStored => "value type mismatch"
  | .stated text => text

/-- Why a list of nodes is not the description of a schema. -/
inductive ConfigurationReason where
  | noRoot
  | malformedRoot
  | tooManyNodes
  | noParent (node : Nat) (name : String)
  | danglingParent (node : Nat) (name : String) (parent : Nat)
  | ownParent (node : Nat) (name : String)
  | invalidName (child parent : String)
  | duplicateName (child parent : String)
  | leafWithChildren (name : String)
  | groupWithoutChildren (name : String)
  | nestedTooDeeply (name : String)
  | unreachable (node : Nat) (name : String)
  /-- A reason in the caller's own words. -/
  | stated (text : String)
  deriving DecidableEq

def ConfigurationReason.message : ConfigurationReason → String
  | .noRoot => "schema has no root node"
  | .malformedRoot => "node 0 must be the root: no parent and no scalar type"
  | .tooManyNodes => "too many schema nodes"
  | .noParent node name => s!"node {node} ('{name}') has no parent"
  | .danglingParent node name parent =>
    s!"node {node} ('{name}') refers to dangling parent {parent}"
  | .ownParent node name => s!"node {node} ('{name}') is its own parent"
  | .invalidName child parent => s!"invalid field name '{child}' under '{parent}'"
  | .duplicateName child parent => s!"duplicate field '{child}' under '{parent}'"
  | .leafWithChildren name => s!"leaf field '{name}' must not have children"
  | .groupWithoutChildren name => s!"group '{name}' has no children"
  | .nestedTooDeeply name => s!"'{name}' is nested too deeply"
  | .unreachable node name =>
    s!"node {node} ('{name}') is not reachable from the root (parent cycle)"
  | .stated text => text

/-- Why an argument is outside the domain of an operation. The reason determines the argument. -/
inductive ArgumentReason where
  /-- A field number of 2^32 or more. -/
  | fieldNumberTooLarge (number : Nat)
  | noFieldsSelected
  /-- A column was asked for the group with this path. -/
  | columnOfGroup (path : String)
  | repetitionAboveMaximum
  | definitionAboveMaximum
  /-- A value must be given exactly at the maximum definition level. -/
  | valueAgainstDefinition
  | columnOutOfRange (column count : Nat)
  | widthMismatch (staged stored : Nat)
  /-- The readers are not those of the machine's fields, in order. -/
  | readersMismatch
  | recordOutOfRange
  | rangeOutOfBounds
  /-- A reason in the caller's own words, about the named argument. -/
  | stated (argument text : String)
  deriving DecidableEq

/-- The argument that a reason is about. -/
def ArgumentReason.argument : ArgumentReason → String
  | .fieldNumberTooLarge _ => "field_id"
  | .noFieldsSelected => "projection"
  | .columnOfGroup _ => "field"
  | .repetitionAboveMaximum => "repetition_level"
  | .definitionAboveMaximum => "definition_level"
  | .valueAgainstDefinition => "value"
  | .columnOutOfRange .. => "column"
  | .widthMismatch .. => "columns"
  | .readersMismatch => "readers"
  | .recordOutOfRange => "record_index"
  | .rangeOutOfBounds => "range"
  | .stated argument _ => argument

def ArgumentReason.message : ArgumentReason → String
  | .fieldNumberTooLarge number => s!"{number} does not fit in u32"
  | .noFieldsSelected => "no fields selected"
  | .columnOfGroup path => s!"'{path}' is a group, columns store leaf fields"
  | .repetitionAboveMaximum => "repetition_level <= self.max_repetition_level"
  | .definitionAboveMaximum => "definition_level <= self.max_definition_level"
  | .valueAgainstDefinition =>
    "value.is_some() == (definition_level == self.max_definition_level)"
  | .columnOutOfRange column count => s!"{column} >= {count}"
  | .widthMismatch staged stored =>
    s!"staged record has {staged} columns, store has {stored}"
  | .readersMismatch => "expected one reader per FSM field, in FSM order"
  | .recordOutOfRange => "record_index < self.record_count"
  | .rangeOutOfBounds => "range.start <= range.end && range.end <= self.record_count"
  | .stated _ text => text

/-- Why the rows read from a set of columns do not form a record. -/
inductive FormatReason where
  /-- The first row of a record is row `row`, with a level other than 0. -/
  | startsInsideRecord (row level : Nat)
  /-- A field is read again at a level that belongs to no repeated node of its path. -/
  | unownedLevel (level : Nat)
  /-- Fewer groups are open than a new instance of a repeated node needs. -/
  | openGroupsForRepetition
  /-- A value was read although not all groups around it are open. -/
  | openGroupsForValue
  | openInstanceMissing (index : Nat)
  | endsInsideRecord (row : Nat)
  /-- A reason in the caller's own words. -/
  | stated (text : String)
  deriving DecidableEq

def FormatReason.message : FormatReason → String
  | .startsInsideRecord row level => s!"record starts at row {row} with repetition level {level}"
  | .unownedLevel level => s!"repetition level {level} does not repeat any node"
  | .openGroupsForRepetition => "open.len() >= owner.min(groups.len())"
  | .openGroupsForValue => "open.len() == groups.len()"
  | .openInstanceMissing index => s!"open group instance #{index} missing"
  | .endsInsideRecord row => s!"record ends inside the column at row {row}"
  | .stated text => text

/-! ### Faults -/

/-- What an operation reports instead of a result. -/
inductive Fault where
  /-- A record, row or projection does not conform to the schema. -/
  | schemaMismatch (element : String) (reason : MismatchReason)
  /-- Row (or record) `position` was read from a column that holds only `length` of them. -/
  | storeUnderrun (column : String) (position length : Nat)
  /-- A schema tree is malformed. -/
  | configuration (reason : ConfigurationReason)
  /-- An argument is outside its domain. -/
  | invalidArgument (reason : ArgumentReason)
  /-- Stored rows contradict each other. -/
  | invalidFormat (element : String) (reason : FormatReason)
  deriving DecidableEq

namespace Fault

/-- The complete text of a fault. -/
def message : Fault → String
  | .schemaMismatch element reason => s!"schema mismatch for '{element}': {reason.message}"
  | .storeUnderrun column position length =>
    s!"column '{column}' underrun: position {position} is past the end ({length} rows)"
  | .configuration reason => s!"invalid schema configuration: {reason.message}"
  | .invalidArgument reason => s!"invalid argument {reason.argument}: {reason.message}"
  | .invalidFormat element reason =>
    s!"invalid storage format for '{element}': {reason.message}"

/-- The texts that a fault is made of. -/
def parts : Fault → List String
  | .schemaMismatch element reason => [element, reason.message]
  | .storeUnderrun column position length => [column, toString position, toString length]
  | .configuration reason => [reason.message]
  | .invalidArgument reason => [reason.argument, reason.message]
  | .invalidFormat element reason => [element, reason.message]

/-- A record or projection does not conform to the schema. -/
def isSchemaMismatch : Fault → Bool
  | .schemaMismatch .. => true
  | _ => false

/-- A read went past the end of a column. -/
def isStoreUnderrun : Fault → Bool
  | .storeUnderrun .. => true
  | _ => false

/-- A schema tree is malformed. -/
def isConfiguration : Fault → Bool
  | .configuration .. => true
  | _ => false

/-- The name under which a field without a path is reported. -/
def fieldNumber (id : Nat) : String :=
  s!"field #{id}"

end Fault

/-- A condition on an argument, stated in the caller's words. -/
def checkArgument (condition : Bool) (argument text : String) : Except Fault Unit :=
  if condition then .ok () else .error (.invalidArgument (.stated argument text))

/-- A condition on stored data, stated in the caller's words. -/
def checkFormat (condition : Bool) (element text : String) : Except Fault Unit :=
  if condition then .ok () else .error (.invalidFormat element (.stated text))

end NestedColumns
