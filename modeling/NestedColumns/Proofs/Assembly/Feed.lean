/-
Rebuilding from visits.

Assembly adds rows to a record one by one, and between two rows it only remembers the leaf that was
read last and the open group instances. `feed` does the same with a list of visits, without readers.

* `settle` is what one row adds once it is known which instances stay open: the absence of a field
  adds nothing (`settle_absence`), a value is pushed (`settle_value`), and the first row below a new
  instance pushes that instance (`settle_enter`).
* `Rebuilds place visits before after` — started at a place, the visits turn the record `before` into
  `after` and keep the place open. Two lists of visits that join at the place are rebuilt one after
  the other (`Rebuilds.append`).
-/

import NestedColumns.Assembly.Assemble
import NestedColumns.Proofs.Record.Focus
import NestedColumns.Proofs.Schema.Owner
import NestedColumns.Proofs.Striping.Visits

namespace NestedColumns.Assembly

/-! ### One row -/

/-- The value of a row, if it has one, is pushed when all groups around its leaf are open. -/
def addValue (visit : Visit) : Record.Place × Record → Except Fault (Record.Place × Record)
  | (place, record) =>
    match visit.2.value with
    | none => .ok (place, record)
    | some value =>
      if place.length = (groupsOf visit.1).length then
        (pushInto place visit.1.name value record).map fun (longer, _) => (place, longer)
      else .error (.invalidFormat "open" .openGroupsForValue)

/-- What a row of a leaf adds when the instances of `place` stay open. -/
def settle (place : Record.Place) (record : Record) (visit : Visit) :
    Except Fault (Record.Place × Record) :=
  openGroups visit.2.definition ((groupsOf visit.1).drop place.length)
    (Path.definitionLevel ((groupsOf visit.1).take place.length)) place record >>= addValue visit

theorem addRow_eq (progress : Progress) (index : Nat) (visit : Visit) (position : Nat) :
    addRow progress index visit.1 visit.2 position =
      (keptGroups progress index visit.1 visit.2 position >>= fun kept =>
        settle (progress.chain.take kept) progress.record visit) := by
  unfold addRow
  refine congrArg (keptGroups progress index visit.1 visit.2 position >>= ·) ?_
  funext kept
  refine congrArg (openGroups _ _ _ _ _ >>= ·) ?_
  funext ⟨place, record⟩
  unfold addValue
  cases visit.2.value with
  | none => rfl
  | some value =>
    by_cases full : place.length = (groupsOf visit.1).length
    · simp only [if_pos full]
      cases pushInto place visit.1.name value record <;> rfl
    · simp only [if_neg full]

section Settle

variable {place : Record.Place} {context : Record → Record} {outer : Record} {path : Path}
  {label : Label} {visit : Visit}

theorem pushInto_eq_ok (focus : Record.Focus place context) (name : String) (value : Value) :
    pushInto place name value (context outer) =
      .ok (context (outer.push name value), (outer.getAll name).length) := by
  rw [pushInto, focus.pushAt]
  rfl

theorem groupsOf_eq {rest : Path} (parts : visit.1.path = path ++ label :: rest) :
    groupsOf visit.1 = path ++ (label :: rest).dropLast := by
  unfold groupsOf
  rw [parts, List.dropLast_append_of_ne_nil (List.cons_ne_nil _ _)]

/-- The absence of a field opens nothing. -/
theorem settle_absence {record : Record} (depth : place.length = path.length)
    (below : path ++ [label] <+: visit.1.path) (absent : label.cardinality.mayBeAbsent = true)
    (nothing : visit.2.value = none) (defined : visit.2.definition = Path.definitionLevel path) :
    settle place record visit = .ok (place, record) := by
  obtain ⟨rest, parts⟩ := below
  rw [List.append_assoc, List.singleton_append] at parts
  have opened : openGroups visit.2.definition ((groupsOf visit.1).drop place.length)
      (Path.definitionLevel ((groupsOf visit.1).take place.length)) place record =
        .ok (place, record) := by
    rw [groupsOf_eq parts.symm, depth, List.drop_left, List.take_left]
    cases rest with
    | nil => rfl
    | cons next rest =>
      rw [List.dropLast_cons_cons, openGroups, if_pos absent, defined]
      exact if_pos (Nat.lt_succ_self _)
  unfold settle
  rw [opened]
  show addValue visit (place, record) = _
  unfold addValue
  rw [nothing]

/-- A value of a leaf is pushed to the open instance. -/
theorem settle_value {value : Value} (focus : Record.Focus place context)
    (depth : place.length = path.length) (ends : visit.1.path = path ++ [label])
    (some : visit.2.value = some value) :
    settle place (context outer) visit = .ok (place, context (outer.push visit.1.name value)) := by
  have groups : groupsOf visit.1 = path := by
    rw [groupsOf_eq ends, List.dropLast_singleton, List.append_nil]
  unfold settle
  rw [groups, depth, List.drop_length]
  show addValue visit (place, context outer) = _
  unfold addValue
  rw [some]
  dsimp only
  rw [groups, if_pos depth, pushInto_eq_ok focus]
  rfl

/-- A row below a new instance of a group opens that instance first. -/
theorem settle_enter (focus : Record.Focus place context) (depth : place.length = path.length)
    (below : path ++ [label] <+: visit.1.path) (further : (path ++ [label]).length < visit.1.path.length)
    (defined : Path.definitionLevel (path ++ [label]) ≤ visit.2.definition) :
    settle place (context outer) visit =
      settle (place ++ [(label.name, (outer.getAll label.name).length)])
        (context (outer.push label.name (.record .empty))) visit := by
  obtain ⟨rest, parts⟩ := below
  have more : rest ≠ [] := by
    rintro rfl
    rw [← parts] at further
    simp at further
  have groups : groupsOf visit.1 = path ++ label :: rest.dropLast := by
    rw [List.append_assoc, List.singleton_append] at parts
    rw [groupsOf_eq parts.symm, List.dropLast_cons_of_ne_nil more]
  have reached : (if label.cardinality.mayBeAbsent then Path.definitionLevel path + 1
      else Path.definitionLevel path) = Path.definitionLevel (path ++ [label]) := by
    rw [Path.definitionLevel_append, Path.definitionLevel, Path.definitionLevel,
      List.countP_singleton]
    cases label.cardinality.mayBeAbsent <;> rfl
  have taken : (path ++ label :: rest.dropLast).take (place.length + 1) = path ++ [label] := by
    rw [depth, List.take_length_add_append]
    rfl
  have dropped : (path ++ label :: rest.dropLast).drop (place.length + 1) = rest.dropLast := by
    rw [depth, List.drop_length_add_append]
    rfl
  rw [settle, settle, groups, List.length_append, List.length_singleton, taken, dropped, depth, List.drop_left,
    List.take_left, openGroups, reached, if_neg (Nat.not_lt_of_le defined), pushInto_eq_ok focus]
  rfl

end Settle

/-! ### Several rows -/

/-- How many of the open instances stay open after a row of `last`, as `keptGroups` says. -/
def keptAfter (last : Node) (visit : Visit) (opened : Nat) : Except Fault Nat :=
  if last.column < visit.1.column then .ok (min (last.commonAncestorPath visit.1).length opened)
  else
    match Path.ownerIndex visit.2.repetition visit.1.path with
    | none => .error (.invalidFormat visit.1.pathText (.unownedLevel visit.2.repetition))
    | some owner =>
      if min owner (groupsOf visit.1).length ≤ opened then .ok owner
      else .error (.invalidFormat "open" .openGroupsForRepetition)

/-- The open instances and the record after more visits, the last row read being one of `last`. -/
def feed (last : Node) (place : Record.Place) (record : Record) :
    List Visit → Except Fault (Record.Place × Record)
  | [] => .ok (place, record)
  | visit :: visits => do
    let kept ← keptAfter last visit place.length
    let opened ← settle (place.take kept) record visit
    feed visit.1 opened.1 opened.2 visits

/-- The open instances and the record after visits, for the first of which the instances of `place`
stay open. -/
def feedFrom (place : Record.Place) (record : Record) :
    List Visit → Except Fault (Record.Place × Record)
  | [] => .ok (place, record)
  | visit :: visits => do
    let opened ← settle place record visit
    feed visit.1 opened.1 opened.2 visits

theorem feed_append (first second : List Visit) (last : Node) (place : Record.Place)
    (record : Record) : feed last place record (first ++ second) =
      (feed last place record first >>= fun opened =>
        feed ((first.getLast?.map (·.1)).getD last) opened.1 opened.2 second) := by
  induction first generalizing last place record with
  | nil => rfl
  | cons visit first ih =>
    have ends : (((visit :: first).getLast?.map (·.1)).getD last : Node) =
        (first.getLast?.map (·.1)).getD visit.1 := by
      rw [List.getLast?_cons]
      cases first.getLast? <;> rfl
    rw [List.cons_append, feed, feed, ends, bind_assoc]
    refine congrArg (keptAfter last visit place.length >>= ·) ?_
    funext kept
    rw [bind_assoc]
    refine congrArg (settle (place.take kept) record visit >>= ·) ?_
    funext opened
    exact ih visit.1 opened.1 opened.2

/-- From a place, visits turn one record into another, inside the instances of the place. -/
def Rebuilds (place : Record.Place) (visits : List Visit) (before after : Record) : Prop :=
  ∃ inside, feedFrom place before visits = .ok (inside, after) ∧ place <+: inside

/-- Visits inside a new instance of a group open that instance first. -/
theorem Rebuilds.enter {place : Record.Place} {context : Record → Record} {outer after : Record}
    {path : Path} {label : Label} {visits : List Visit}
    (inside : Rebuilds (place ++ [(label.name, (outer.getAll label.name).length)]) visits
      (context (outer.push label.name (.record .empty))) after)
    (focus : Record.Focus place context) (depth : place.length = path.length)
    (below : ∀ visit ∈ visits, path ++ [label] <+: visit.1.path ∧
      (path ++ [label]).length < visit.1.path.length ∧
      Path.definitionLevel (path ++ [label]) ≤ visit.2.definition)
    (some : visits ≠ []) : Rebuilds place visits (context outer) after := by
  obtain ⟨visit, rest, rfl⟩ := List.exists_cons_of_ne_nil some
  obtain ⟨leads, further, defined⟩ := below visit List.mem_cons_self
  obtain ⟨opened, fed, deeper⟩ := inside
  refine ⟨opened, ?_, (List.prefix_append place _).trans deeper⟩
  rw [feedFrom, settle_enter focus depth leads further defined]
  exact fed

/-- After the first list of visits, the second starts anew inside the outer `depth` instances. -/
def Joins (depth : Nat) (first second : List Visit) : Prop :=
  ∀ last, first.getLast? = some last → ∀ next, second.head? = some next →
    ∀ opened, depth ≤ opened → keptAfter last.1 next opened = .ok depth

theorem Rebuilds.nil (place : Record.Place) (record : Record) : Rebuilds place [] record record :=
  ⟨place, rfl, List.prefix_rfl⟩

theorem Rebuilds.append {place : Record.Place} {first second : List Visit}
    {before middle after : Record} (here : Rebuilds place first before middle)
    (later : Rebuilds place second middle after) (joins : Joins place.length first second) :
    Rebuilds place (first ++ second) before after := by
  obtain ⟨inside, fed, within⟩ := here
  cases first with
  | nil =>
    cases fed
    exact later
  | cons visit first =>
    cases second with
    | nil =>
      obtain ⟨_, nothing, _⟩ := later
      cases nothing
      rw [List.append_nil]
      exact ⟨inside, fed, within⟩
    | cons next second =>
      obtain ⟨inside', fed', within'⟩ := later
      refine ⟨inside', ?_, within'⟩
      obtain ⟨opened, settled, fed⟩ := bind_eq_ok.mp fed
      have ends : (visit :: first).getLast? = some ((first.getLast?).getD visit) :=
        List.getLast?_cons
      have kept := joins _ ends next rfl inside.length within.length_le
      have last : (((first.getLast?).getD visit).1 : Node) =
          (first.getLast?.map (·.1)).getD visit.1 := by
        cases first.getLast? <;> rfl
      have back : inside.take place.length = place := (List.prefix_iff_eq_take.mp within).symm
      rw [List.cons_append, feedFrom, settled]
      show feed visit.1 opened.1 opened.2 (first ++ next :: second) = _
      rw [feed_append, fed]
      show feed _ inside middle (next :: second) = _
      rw [feed, ← last, kept]
      show (settle (inside.take place.length) middle next >>= _) = _
      rw [back]
      exact fed'

end NestedColumns.Assembly
