/-
The text of a value.

Names and strings are quoted, numbers are written in the shortest form that reads back. A field with
one value shows it bare, a field with several in brackets; a field without values is not shown.
-/

import NestedColumns.Number.Layout
import NestedColumns.Record.Basic
import NestedColumns.Text.Quoted

namespace NestedColumns

/-- Numbers from 10^-4 up to 10^16 are written with the point at its place, others with a bare
exponent; an equally near digit is taken upwards. -/
def Scalar.numberLayout : DecimalLayout where
  leastPositional := -4
  greatestPositional := 15
  plusSign := false
  tie := .away

/-- The text of a floating-point number, also of those that are not finite. -/
def Scalar.float64Text (x : Binary64) : String :=
  if x.isNaN then "NaN"
  else if x.isFinite then Scalar.numberLayout.text x
  else if x.isNegative then "-inf"
  else "inf"

def Scalar.text : Scalar → String
  | .boolean value => if value then "true" else "false"
  | .int64 value => toString value.toInt
  | .float64 value => Scalar.float64Text value
  | .string value => Text.quoted value

mutual

def Value.text : Value → String
  | .scalar content => content.text
  | .record content => content.text
termination_by structural value => value

def Record.text : Record → String
  | ⟨entries⟩ => "\x7b" ++ ", ".intercalate (Record.entryTexts entries) ++ "\x7d"
termination_by structural record => record

/-- The texts of the entries that hold values. -/
def Record.entryTexts : List (String × List Value) → List String
  | [] => []
  | (name, values) :: rest =>
    match Value.texts values with
    | [] => Record.entryTexts rest
    | [text] => (Text.quoted name ++ ": " ++ text) :: Record.entryTexts rest
    | texts =>
      (Text.quoted name ++ ": [" ++ ", ".intercalate texts ++ "]") :: Record.entryTexts rest
termination_by structural entries => entries

def Value.texts : List Value → List String
  | [] => []
  | value :: values => value.text :: Value.texts values
termination_by structural values => values

end

end NestedColumns
