/-
Readers: positions in columns.

A reader stands before a row of its column, or past the end. Past the end the next repetition level
counts as 0, the level that starts a record.
-/

import NestedColumns.Column.Basic

namespace NestedColumns

/-- A column and the row that is read next. -/
structure Reader where
  column : Column
  position : Nat := 0

namespace Reader

/-- A reader at the first row of a record. -/
def atRecord (column : Column) (record : Nat) : Except Fault Reader :=
  match column.recordStart? record with
  | some start => .ok ⟨column, start⟩
  | none => .error (.storeUnderrun column.path record column.recordCount)

/-- The field whose rows are read. -/
def field (reader : Reader) : FieldId :=
  reader.column.field

/-- The reader at another position. -/
def seek (reader : Reader) (position : Nat) : Reader :=
  { reader with position }

def isExhausted (reader : Reader) : Bool :=
  reader.column.size ≤ reader.position

/-- The next row. -/
def peek (reader : Reader) : Except Fault Row :=
  reader.column.get reader.position

/-- The next row, and the reader behind it. -/
def read (reader : Reader) : Except Fault (Row × Reader) :=
  reader.peek.map fun row => (row, reader.seek (reader.position + 1))

/-- The repetition level of the next row. -/
def nextRepetition (reader : Reader) : Level :=
  (reader.column.repetitionLevels[reader.position]?).getD 0

/-- How many rows are still to be read. -/
def unread (reader : Reader) : Nat :=
  reader.column.size - reader.position

theorem position_lt_of_read {reader after : Reader} {row : Row}
    (found : reader.read = .ok (row, after)) : reader.position < reader.column.size := by
  cases inside : reader.column.repetitionLevels[reader.position]? with
  | none => simp [read, peek, Column.get, Column.get?, inside, Except.map] at found
  | some level => exact (Array.getElem?_eq_some_iff.mp inside).1

theorem after_of_read {reader after : Reader} {row : Row}
    (found : reader.read = .ok (row, after)) : after = reader.seek (reader.position + 1) := by
  unfold read at found
  cases next : reader.peek with
  | error fault => simp [next, Except.map] at found
  | ok value =>
    simp only [next, Except.map, Except.ok.injEq, Prod.mk.injEq] at found
    exact found.2.symm

/-- A row that is read is no longer unread. -/
theorem unread_lt_of_read {reader after : Reader} {row : Row}
    (found : reader.read = .ok (row, after)) : after.unread < reader.unread := by
  have inside := position_lt_of_read found
  rw [after_of_read found]
  simp only [unread, seek]
  omega

end Reader

/-- How many rows a list of readers has still to read. -/
def unreadRows : List Reader → Nat
  | [] => 0
  | reader :: rest => reader.unread + unreadRows rest

theorem unreadRows_set_lt {readers : List Reader} {index : Nat} {reader after : Reader} {row : Row}
    (here : readers[index]? = some reader) (found : reader.read = .ok (row, after)) :
    unreadRows (readers.set index after) < unreadRows readers := by
  induction readers generalizing index with
  | nil => simp at here
  | cons first rest ih =>
    cases index with
    | zero =>
      simp only [List.getElem?_cons_zero, Option.some.injEq] at here
      subst here
      have less := Reader.unread_lt_of_read found
      simp only [List.set_cons_zero, unreadRows]
      omega
    | succ index =>
      have less := ih (by simpa using here)
      simp only [List.set_cons_succ, unreadRows]
      omega

end NestedColumns
