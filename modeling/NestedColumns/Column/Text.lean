/-
The text of a column: its path and a table with one line per row. Strings stand there as they are,
and an absent value is marked.
-/

import NestedColumns.Column.Basic
import NestedColumns.Record.Text

namespace NestedColumns

/-- The value of a row in a table. -/
def Row.valueText (row : Row) : String :=
  match row.value with
  | some (.scalar (.string text)) => text
  | some value => value.text
  | none => "NULL"

/-- The line of a row. -/
def Row.text (row : Row) : String :=
  s!"| {row.valueText} | {row.repetition} | {row.definition} |\n"

/-- The table of a column. -/
def Column.text (column : Column) : String :=
  s!"{column.path}\n| value | r | d |\n|-------|---|---|\n" ++
    String.join (column.rows.map Row.text)

end NestedColumns
