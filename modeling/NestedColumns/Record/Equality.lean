/-
Equality of records as callers see it.

Two records are equal if the same fields hold equal values; entries without values do not count. On
floating-point numbers equality is the numerical one, so a record that holds NaN differs from
itself.
-/

import NestedColumns.Record.Basic

namespace NestedColumns

mutual

def Value.isEqual : Value → Value → Bool
  | .scalar a, .scalar b => a.isEqual b
  | .record a, .record b => a.isEqual b
  | _, _ => false
termination_by structural value => value

def Record.isEqual : Record → Record → Bool
  | ⟨entries⟩, other => Record.entriesEqual entries other.fields
termination_by structural record => record

/-- The entries that hold values are, one by one, the given ones. -/
def Record.entriesEqual : List (String × List Value) → List (String × List Value) → Bool
  | [], others => others.isEmpty
  | (_, []) :: rest, others => Record.entriesEqual rest others
  | (_, _ :: _) :: _, [] => false
  | (name, value :: values) :: rest, (name', values') :: others =>
    name == name' && Value.listsEqual (value :: values) values' && Record.entriesEqual rest others
termination_by structural entries => entries

def Value.listsEqual : List Value → List Value → Bool
  | [], [] => true
  | value :: values, other :: others => value.isEqual other && Value.listsEqual values others
  | _, _ => false
termination_by structural values => values

end

end NestedColumns
