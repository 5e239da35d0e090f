/-
Records that are being assembled.

`Unfinished` describes a record between two rows: along the chain of open instances every instance is
filled in the order of the fields, up to the field that the path of the leaf that was read last goes
through. It has the shape of the schema already (`Unfinished.fills`).

* `Unfinished.turn` — when the chain is cut where the path of the next leaf turns off, that leaf may
  be read on from there (`Resumes`): the field that the path turns to has room for another value.
* `Resumes.settle` — a row of that leaf leaves an unfinished record again.
-/

import NestedColumns.Proofs.Assembly.Feed
import NestedColumns.Proofs.Record.Shape

namespace NestedColumns.Assembly

/-- **A record in the making.** The path is that of the leaf that was read last, and the place that of
the open instances along it. -/
inductive Unfinished (covered : FieldId → Bool) :
    List Field → Path → Record.Place → Record → Prop
  | leaf {fields : List Field} {n : Nat} {label : Label} {type : ScalarType} {record : Record}
      (found : fields[n]? = some (.leaf label type)) (filling : record.Filling covered fields n) :
      Unfinished covered fields [label] [] record
  /-- The row had no instance of the next group. -/
  | closed {fields : List Field} {n : Nat} {label : Label} {children : List Field} {rest : Path}
      {record : Record} (found : fields[n]? = some (.group label children))
      (filling : record.Filling covered fields n) (room : record.HasRoom label) :
      Unfinished covered fields (label :: rest) [] record
  | opened {fields : List Field} {n : Nat} {label : Label} {children : List Field} {rest : Path}
      {place : Record.Place} {outer inner : Record}
      (found : fields[n]? = some (.group label children)) (among : covered label.id = true)
      (filling : outer.Filling covered fields n) (room : outer.HasRoom label)
      (inside : Unfinished covered children rest place inner) :
      Unfinished covered fields (label :: rest)
        ((label.name, (outer.getAll label.name).length) :: place)
        (outer.push label.name (.record inner))

/-- A field is the next to take a value. -/
def Vacant (covered : FieldId → Bool) (fields : List Field) (path : Path) (record : Record) : Prop :=
  ∀ n field, fields[n]? = some field → path.head? = some field.label →
    record.Filling covered fields n ∧ record.HasRoom field.label

/-- **A record in the making from which a leaf may be read on**, when the instances of the place stay
open. -/
inductive Resumes (covered : FieldId → Bool) (type : ScalarType) :
    List Field → Path → Record.Place → Record → Prop
  | here {fields : List Field} {path : Path} {record : Record}
      (reaches : Field.Reaches covered type fields path)
      (vacant : Vacant covered fields path record) : Resumes covered type fields path [] record
  | inside {fields : List Field} {n : Nat} {label : Label} {children : List Field} {rest : Path}
      {place : Record.Place} {outer inner : Record}
      (found : fields[n]? = some (.group label children)) (among : covered label.id = true)
      (filling : outer.Filling covered fields n) (room : outer.HasRoom label)
      (below : Resumes covered type children rest place inner) :
      Resumes covered type fields (label :: rest)
        ((label.name, (outer.getAll label.name).length) :: place)
        (outer.push label.name (.record inner))

variable {covered : FieldId → Bool} {type : ScalarType} {fields : List Field} {above : Label}
  {path path' : Path} {place : Record.Place} {record : Record}

theorem vacant_empty (covered : FieldId → Bool) (fields : List Field) (path : Path) :
    Vacant covered fields path Record.empty :=
  fun n _ _ _ => ⟨Record.filling_empty covered fields n, .inr rfl⟩

theorem Resumes.ne_nil (resumes : Resumes covered type fields path place record) : path ≠ [] := by
  cases resumes with
  | here reaches _ => exact reaches.ne_nil
  | inside _ _ _ _ _ => exact List.cons_ne_nil _ _

/-! ### Turning to another leaf -/

theorem Unfinished.exists_filling (wellFormed : (Field.group above fields).WellFormed)
    (unfinished : Unfinished covered fields path place record) :
    ∃ n field, fields[n]? = some field ∧ path.head? = some field.label ∧
      record.Filling covered fields n := by
  induction unfinished generalizing above with
  | leaf found filling => exact ⟨_, _, found, rfl, filling⟩
  | closed found filling _ => exact ⟨_, _, found, rfl, filling⟩
  | @opened fields n label children rest place before inner found among filling room inside ih =>
    obtain ⟨_, _, _, _, within⟩ := ih (wellFormed.child found)
    refine ⟨n, _, found, rfl, filling.push wellFormed.named found among room ?_⟩
    exact Record.fills_iff.mpr within.fills

/-- **A record in the making has the shape of the schema.** -/
theorem Unfinished.fills (wellFormed : (Field.group above fields).WellFormed)
    (unfinished : Unfinished covered fields path place record) : record.Fills covered fields := by
  obtain ⟨_, _, _, _, filling⟩ := unfinished.exists_filling wellFormed
  exact filling.fills

/-- Only the field that a path begins with has to be vacant. -/
theorem vacant_of_head (wellFormed : (Field.group above fields).WellFormed) {n : Nat} {field : Field}
    (found : fields[n]? = some field) (head : path.head? = some field.label)
    (filling : record.Filling covered fields n) (room : record.HasRoom field.label) :
    Vacant covered fields path record := by
  intro m other found' head'
  have same : field.label = other.label := Option.some.inj (head.symm.trans head')
  obtain rfl := wellFormed.index_eq found found' same
  obtain rfl := Option.some.inj (found.symm.trans found')
  exact ⟨filling, room⟩

/-- **Where the path of the next leaf turns off, reading goes on.** -/
theorem Unfinished.turn {depth : Nat} (wellFormed : (Field.group above fields).WellFormed)
    (unfinished : Unfinished covered fields path place record)
    (turns : Field.Turns fields path path' depth)
    (reaches : Field.Reaches covered type fields path') :
    Resumes covered type fields path' (place.take depth) record := by
  induction turns generalizing above place record with
  | later atN atM less =>
    obtain ⟨n, field, found, head, filling⟩ := unfinished.exists_filling wellFormed
    obtain rfl := wellFormed.index_eq atN found (Option.some.inj head)
    exact .here reaches (vacant_of_head wellFormed atM rfl (filling.mono (Nat.le_of_lt less))
      (.inr (filling.later _ _ less atM)))
  | again atN repeats =>
    obtain ⟨n, field, found, head, filling⟩ := unfinished.exists_filling wellFormed
    obtain rfl := wellFormed.index_eq atN found (Option.some.inj head)
    exact .here reaches (vacant_of_head wellFormed atN rfl filling (.inl repeats))
  | @inside fields n label children rest rest' depth atN below ih =>
    -- the label tells which of the fields it is, whichever of the paths is followed
    have only : ∀ {m : Nat} {field : Field}, fields[m]? = some field → field.label = label →
        field = .group label children := by
      intro m field found same
      obtain rfl := wellFormed.index_eq atN found same.symm
      exact (Option.some.inj (atN.symm.trans found)).symm
    cases unfinished with
    | leaf found _ => cases only found rfl
    | closed found filling room =>
      exact .here reaches (vacant_of_head wellFormed found rfl filling room)
    | opened found among filling room inside =>
      cases only found rfl
      cases reaches with
      | leaf found' _ => cases only found' rfl
      | group found' _ reaches' =>
        cases only found' rfl
        exact .inside found among filling room (ih (wellFormed.child found) inside reaches')

/-! ### One row -/

/-- A row of a leaf with the given path and type. -/
structure IsRowAt (type : ScalarType) (path : Path) (visit : Visit) : Prop where
  label : path.getLast? = some visit.1.label
  typed : ∀ value, visit.2.value = some value → value.kind = .scalar type

theorem IsRowAt.tail {label : Label} {visit : Visit} (isRow : IsRowAt type (label :: path) visit)
    (more : path ≠ []) : IsRowAt type path visit where
  label := by
    have last := isRow.label
    rwa [List.getLast?_cons_of_ne_nil more] at last
  typed := isRow.typed

/-- New instances are opened along the path, and the value is put into the innermost. -/
theorem unfinished_of_openGroups {visit : Visit} (reaches : Field.Reaches covered type fields path)
    (wellFormed : (Field.group above fields).WellFormed) :
    ∀ {before place' : Record.Place} {context : Record → Record} {inner record' : Record}
      {defined : Level}, Record.Focus before context → Vacant covered fields path inner →
      IsRowAt type path visit → before.length + path.length = visit.1.path.length →
      (openGroups visit.2.definition path.dropLast defined before (context inner) >>= addValue visit) =
        .ok (place', record') →
      ∃ place final, place' = before ++ place ∧ record' = context final ∧
        Unfinished covered fields path place final := by
  induction reaches generalizing above with
  | @leaf fields n label found among =>
    intro before place' context inner record' defined focus vacant isRow depth added
    obtain ⟨filling, room⟩ := vacant n _ found rfl
    have full : before.length = (groupsOf visit.1).length := by
      unfold groupsOf
      rw [List.length_dropLast, ← depth, List.length_singleton, Nat.add_sub_cancel]
    have added : addValue visit (before, context inner) = .ok (place', record') := added
    unfold addValue at added
    cases content : visit.2.value with
    | none =>
      rw [content] at added
      cases added
      exact ⟨[], inner, (List.append_nil _).symm, rfl, .leaf found filling⟩
    | some value =>
      have name : visit.1.name = label.name := congrArg Label.name (Option.some.inj isRow.label).symm
      rw [content] at added
      dsimp only at added
      rw [if_pos full, pushInto_eq_ok focus, name] at added
      cases added
      refine ⟨[], _, (List.append_nil _).symm, rfl, .leaf found ?_⟩
      refine filling.push wellFormed.named found among room ?_
      rw [Field.Shapes]
      exact isRow.typed value content
  | @group fields n label children rest found among below ih =>
    intro before place' context inner record' defined focus vacant isRow depth added
    obtain ⟨filling, room⟩ := vacant n _ found rfl
    rw [List.dropLast_cons_of_ne_nil below.ne_nil, openGroups] at added
    by_cases stops :
        visit.2.definition < (if label.cardinality.mayBeAbsent then defined + 1 else defined)
    · -- the row ends above this group, so it has no value
      rw [if_pos stops] at added
      have added : addValue visit (before, context inner) = .ok (place', record') := added
      have short : ¬ before.length = (groupsOf visit.1).length := by
        have more := List.length_pos_of_ne_nil below.ne_nil
        unfold groupsOf
        rw [List.length_dropLast, ← depth, List.length_cons]
        omega
      unfold addValue at added
      cases content : visit.2.value with
      | none =>
        rw [content] at added
        cases added
        exact ⟨[], inner, (List.append_nil _).symm, rfl, .closed found filling room⟩
      | some value =>
        rw [content] at added
        dsimp only at added
        rw [if_neg short] at added
        cases added
    · rw [if_neg stops, pushInto_eq_ok focus] at added
      have deeper : (before ++ [(label.name, (inner.getAll label.name).length)]).length + rest.length =
          visit.1.path.length := by
        rw [← depth, List.length_append, List.length_singleton, List.length_cons]
        omega
      obtain ⟨place, final, rfl, rfl, inside⟩ := ih (wellFormed.child found)
        (focus.enter filling.fills.sorted label.name) (vacant_empty covered children rest)
        (isRow.tail below.ne_nil) deeper added
      exact ⟨_, _, List.append_assoc .., rfl, .opened found among filling room inside⟩

/-- **After a row of the leaf the record is unfinished again**, seen from inside some instance. -/
theorem Resumes.unfinished_of_openGroups {visit : Visit}
    (resumes : Resumes covered type fields path place record)
    (wellFormed : (Field.group above fields).WellFormed) :
    ∀ {before place' : Record.Place} {context : Record → Record} {record' : Record}
      {defined : Level}, Record.Focus before context →
      IsRowAt type path visit → before.length + path.length = visit.1.path.length →
      (openGroups visit.2.definition (path.dropLast.drop place.length) defined (before ++ place)
        (context record) >>= addValue visit) = .ok (place', record') →
      ∃ place final, place' = before ++ place ∧ record' = context final ∧
        Unfinished covered fields path place final := by
  induction resumes generalizing above with
  | here reaches vacant =>
    intro before place' context record' defined focus isRow depth added
    rw [List.append_nil] at added
    exact Assembly.unfinished_of_openGroups reaches wellFormed focus vacant isRow depth added
  | @inside fields n label children rest place outer inner found among filling room below ih =>
    intro before place' context record' defined focus isRow depth added
    rw [List.dropLast_cons_of_ne_nil below.ne_nil, List.length_cons, List.drop_succ_cons,
      List.append_cons] at added
    have deeper : (before ++ [(label.name, (outer.getAll label.name).length)]).length + rest.length =
        visit.1.path.length := by
      rw [← depth, List.length_append, List.length_singleton, List.length_cons]
      omega
    obtain ⟨place, final, rfl, rfl, inside⟩ := ih (wellFormed.child found)
      (focus.enter filling.fills.sorted label.name) (isRow.tail below.ne_nil) deeper added
    exact ⟨_, _, List.append_assoc .., rfl, .opened found among filling room inside⟩

/-- **After a row of the leaf the record is unfinished again.** -/
theorem Resumes.settle {visit : Visit} {opened : Record.Place × Record}
    (resumes : Resumes covered type fields visit.1.path place record)
    (wellFormed : (Field.group above fields).WellFormed) (isRow : IsRowAt type visit.1.path visit)
    (settled : Assembly.settle place record visit = .ok opened) :
    Unfinished covered fields visit.1.path opened.1 opened.2 := by
  obtain ⟨place, final, rfl, rfl, unfinished⟩ := resumes.unfinished_of_openGroups wellFormed
    .root isRow (Nat.zero_add _) settled
  exact unfinished

end NestedColumns.Assembly
