/-
What writing a record produces.

Writing emits rows for columns one after the other and may stop at a fault; the rows that were
emitted before it count. `Written.into` hands the rows to a place that takes them one by one and may
refuse one, which also ends the writing.
-/

import NestedColumns.Column.Basic

namespace NestedColumns

/-- Rows, each with the column it goes to, in the order of writing, and the fault that ended it if
there was one. -/
structure Written where
  rows : List (Nat × Row) := []
  fault : Option Fault := none

namespace Written

/-- One row. -/
def row (column : Nat) (row : Row) : Written :=
  { rows := [(column, row)] }

/-- A fault. -/
def stop (fault : Fault) : Written :=
  { fault := some fault }

/-- One writing after another; nothing follows a fault. -/
def andThen (first second : Written) : Written :=
  match first.fault with
  | some _ => first
  | none => { rows := first.rows ++ second.rows, fault := second.fault }

/-- Several writings, one after the other. -/
def inOrder (writings : List Written) : Written :=
  writings.foldr andThen {}

/-- Rows taken one by one, up to the first that is refused. -/
def deliver {Sink : Type} (insert : Sink → Nat → Row → Except Fault Sink) :
    List (Nat × Row) → Sink → Sink × Except Fault Unit
  | [], sink => (sink, .ok ())
  | (column, row) :: rows, sink =>
    match insert sink column row with
    | .ok next => deliver insert rows next
    | .error fault => (sink, .error fault)

/-- The rows of a writing taken one by one. What is taken before a fault stays. -/
def into {Sink : Type} (written : Written) (insert : Sink → Nat → Row → Except Fault Sink)
    (sink : Sink) : Sink × Except Fault Unit :=
  match deliver insert written.rows sink with
  | (taken, .error fault) => (taken, .error fault)
  | (taken, .ok ()) =>
    match written.fault with
    | some fault => (taken, .error fault)
    | none => (taken, .ok ())

end Written

end NestedColumns
