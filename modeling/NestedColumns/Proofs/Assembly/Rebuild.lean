/-
Records from their visits.

The picked visits of a record, fed one after the other, rebuild what erasure leaves of the record:
`Field.rebuilds_visitsAll` for the fields of one instance, and `Projection.IsOf.rebuilds` for a whole
record.

The induction is on the tree. Between two values of one field, and between two fields of a group,
the visits join at the instance around them (`joins_values`, `joins_siblings`): that is where the
common ancestor of two leaves, and the owner of a repetition level, have to be right.
-/

import NestedColumns.Projection.Erase
import NestedColumns.Proofs.Assembly.Feed
import NestedColumns.Proofs.Assembly.Order

namespace NestedColumns

open Assembly

/-! ### Where visits join -/

namespace Field

variable {covered : FieldId → Bool} {chosen : Nat → Bool} {path : Path} {column : Nat}
  {field : Field} {fields : List Field}

theorem pairwise_column_pickLeaves (chosen : Nat → Bool) (path : Path) (column : Nat)
    (field : Field) :
    (pickLeaves chosen (field.leaves path column)).Pairwise fun a b => a.column < b.column := by
  have ordered : (List.range' column field.leafCount).Pairwise (· < ·) := List.pairwise_lt_range'
  rw [← map_column_leaves path column field, List.pairwise_map] at ordered
  exact ordered.sublist (pickLeaves_sublist _)

/-- Siblings below `path`, of which certain columns are chosen. The covered fields are those with a
chosen leaf. -/
structure IsSelection (covered : FieldId → Bool) (chosen : Nat → Bool) (path : Path) (column : Nat)
    (fields : List Field) : Prop where
  wellFormed : ∀ field ∈ fields, field.WellFormed
  numbered : (fields.map (·.label.id)).Nodup
  distinct : ((leavesAll path column fields).map (·.id)).Nodup
  covers : ∀ node ∈ walkAll path column fields,
    covered node.id = true ↔ pickLeaves chosen node.leaves ≠ []

theorem IsSelection.tail (selection : IsSelection covered chosen path column (field :: fields)) :
    IsSelection covered chosen path (column + field.leafCount) fields where
  wellFormed := fun other member => selection.wellFormed other (List.mem_cons_of_mem _ member)
  numbered := (List.nodup_cons.mp (List.map_cons ▸ selection.numbered)).2
  distinct := by
    have distinct := selection.distinct
    rw [leavesAll_cons, List.map_append, List.nodup_append] at distinct
    exact distinct.2.1
  covers := fun node member => selection.covers node (by
    rw [walkAll]
    exact List.mem_append_right _ member)

theorem IsSelection.children {label : Label} {children : List Field}
    (selection : IsSelection covered chosen path column (.group label children :: fields)) :
    IsSelection covered chosen (path ++ [label]) column children := by
  cases selection.wellFormed _ List.mem_cons_self with
  | group _ _ _ numbered each =>
    refine ⟨each, numbered, ?_, fun node member => selection.covers node ?_⟩
    · have distinct := selection.distinct
      rw [leavesAll_cons, List.map_append, List.nodup_append] at distinct
      exact distinct.1
    · rw [walkAll, walk]
      exact List.mem_append_left _ (List.mem_cons_of_mem _ member)

theorem IsSelection.covers_head
    (selection : IsSelection covered chosen path column (field :: fields)) :
    covered field.label.id = true ↔
      pickLeaves chosen (field.leaves (path ++ [field.label]) column) ≠ [] := by
  refine selection.covers ⟨path ++ [field.label], column, field⟩ ?_
  rw [walkAll]
  refine List.mem_append_left _ ?_
  cases field <;> exact List.mem_cons_self

/-- The visits of a field and those of its later siblings join at the instance around them. -/
theorem joins_siblings (selection : IsSelection covered chosen path column (field :: fields))
    (level : Level) (record : Record) :
    Joins path.length
      (pick chosen (field.visitsOf (path ++ [field.label]) column level
        (record.getAll field.label.name)))
      (pick chosen (visitsAll path (column + field.leafCount) level fields record)) := by
  intro last ends next begins opened deep
  have here : last.1 ∈ field.leaves (path ++ [field.label]) column :=
    mem_leaves_of_mem_visitsOf mem_leaves_of_mem_visits
      (List.mem_of_mem_filter (List.mem_of_getLast? ends))
  have later : next.1 ∈ leavesAll path (column + field.leafCount) fields :=
    mem_leaves_of_mem_visitsAll (List.mem_of_mem_filter (List.mem_of_head? begins))
  obtain ⟨other, among, through⟩ := path_isPrefix_of_mem_leavesAll later
  have differ : field.label.id ≠ other.label.id := by
    have numbered := selection.numbered
    rw [List.map_cons, List.nodup_cons] at numbered
    exact fun same => numbered.1 (List.mem_map.mpr ⟨other, among, same.symm⟩)
  have apart : last.1.id ≠ next.1.id := by
    have distinct := selection.distinct
    rw [leavesAll_cons, List.map_append, List.nodup_append] at distinct
    exact distinct.2.2 _ (List.mem_map_of_mem here) _ (List.mem_map_of_mem later)
  have onward : last.1.column < next.1.column := by
    have inside := column_mem_range_of_mem_leaves here
    have beyond := List.mem_map_of_mem (f := (·.column)) later
    rw [map_column_leavesAll] at beyond
    have bounds := List.mem_range'_1.mp beyond
    omega
  rw [keptAfter, if_pos onward,
    Node.commonAncestorPath_of_parted (path_isPrefix_of_mem_leaves here) through differ apart,
    Nat.min_eq_left deep]

/-- The first picked row has the level that the rows of its leaf start at. -/
theorem repetition_of_head?_pick {visits : List Visit} {next : Visit} {level bound : Level}
    (begins : (pick chosen visits).head? = some next)
    (starts : StartsAt level bound (rowsAt next.1.column visits)) : next.2.repetition = level := by
  have among : chosen next.1.column = true := by
    simpa using (List.mem_filter.mp (List.mem_of_head? begins)).2
  obtain ⟨rest, parts⟩ := List.head?_eq_some_iff.mp begins
  have rows : rowsAt next.1.column visits = next.2 :: rowsAt next.1.column rest := by
    rw [← rowsAt_pick among, parts]
    simp [rowsAt]
  rw [rows] at starts
  cases starts with
  | cons atLevel _ => exact atLevel

/-- Two values of one field join at the instance around them. -/
theorem joins_values {label : Label} {first : List Visit} {second : Value} {more : List Visit}
    (repeats : label.cardinality.isRepeated = true) (admitted : field.Admits second)
    (below : ∀ visit ∈ first, visit.1 ∈ pickLeaves chosen (field.leaves (path ++ [label]) column)) :
    Joins path.length first (pick chosen (field.visits (path ++ [label]) column
      (Path.repetitionLevel (path ++ [label])) second) ++ more) := by
  intro last ends next begins opened deep
  have here := below last (List.mem_of_getLast? ends)
  have heads : (pick chosen (field.visits (path ++ [label]) column
      (Path.repetitionLevel (path ++ [label])) second)).head?.map (·.1) = _ :=
    head?_pick_visits _ second admitted
  obtain ⟨leaf, leaves, parts⟩ := List.exists_cons_of_ne_nil (List.ne_nil_of_mem here)
  rw [parts] at heads here
  obtain ⟨visit, found, same⟩ := Option.map_eq_some_iff.mp heads
  rw [List.head?_append, found, Option.some_or, Option.some.injEq] at begins
  subst begins
  have visited := mem_leaves_of_mem_visits (List.mem_of_mem_filter (List.mem_of_head? found))
  have level := repetition_of_head?_pick found (startsAt_visits _ second visited admitted)
  have notOnward : ¬ last.1.column < visit.1.column := by
    have ordered := pairwise_column_pickLeaves chosen (path ++ [label]) column field
    rw [parts] at ordered
    rw [same]
    rcases List.mem_cons.mp here with rfl | later
    · exact Nat.lt_irrefl _
    · exact Nat.not_lt_of_lt ((List.pairwise_cons.mp ordered).1 _ later)
  have leads := path_isPrefix_of_mem_leaves visited
  unfold keptAfter
  rw [if_neg notOnward, level, Path.ownerIndex_of_isPrefix repeats leads]
  exact if_pos (Nat.le_trans (Nat.min_le_left _ _) deep)

/-! ### Rebuilding -/

theorem mem_pickLeaves_of_mem_pick {level : Level} {value : Value} {visit : Visit}
    (member : visit ∈ pick chosen (field.visits path column level value)) :
    visit.1 ∈ pickLeaves chosen (field.leaves path column) := by
  obtain ⟨visited, among⟩ := List.mem_filter.mp member
  exact List.mem_filter.mpr ⟨mem_leaves_of_mem_visits visited, among⟩

/-- Rows that stand for the absence of a field change nothing. -/
theorem feed_absence {place : Record.Place} {record : Record} {label : Label} {level : Level}
    (depth : place.length = path.length) (absent : label.cardinality.mayBeAbsent = true)
    {leaves : List Node} {last : Node}
    (below : ∀ leaf ∈ last :: leaves, path ++ [label] <+: leaf.path)
    (ordered : (last :: leaves).Pairwise fun a b => a.column < b.column) :
    feed last place record (leaves.map fun leaf =>
      (leaf, ⟨none, level, Path.definitionLevel path⟩)) = .ok (place, record) := by
  induction leaves generalizing last with
  | nil => rfl
  | cons next leaves ih =>
    rw [List.pairwise_cons] at ordered
    have under := below next (by simp)
    have kept : keptAfter last (next, ⟨none, level, Path.definitionLevel path⟩) place.length =
        .ok place.length := by
      have shared := Node.length_le_commonAncestorPath (below last List.mem_cons_self) under
      unfold keptAfter
      rw [if_pos (ordered.1 next List.mem_cons_self), depth, Nat.min_eq_right shared]
    rw [List.map_cons, feed, kept]
    show (settle (place.take place.length) record _ >>= _) = _
    rw [List.take_length, settle_absence depth under absent rfl rfl]
    exact ih (fun other member => below other (List.mem_cons_of_mem _ member)) ordered.2

theorem rebuilds_absence {place : Record.Place} {record : Record} {label : Label} {level : Level}
    (depth : place.length = path.length) (absent : label.cardinality.mayBeAbsent = true) :
    Rebuilds place (pick chosen (field.visitsOf (path ++ [label]) column level [])) record record := by
  have ordered := pairwise_column_pickLeaves chosen (path ++ [label]) column field
  have below : ∀ leaf ∈ pickLeaves chosen (field.leaves (path ++ [label]) column),
      path ++ [label] <+: leaf.path :=
    fun leaf member => path_isPrefix_of_mem_leaves (mem_of_mem_pickLeaves member).1
  unfold visitsOf
  rw [pick_map, (Path.absentLevel_of_mayBeAbsent path absent).1]
  refine ⟨place, ?_, List.prefix_rfl⟩
  cases leaves : pickLeaves chosen (field.leaves (path ++ [label]) column) with
  | nil => rfl
  | cons leaf rest =>
    rw [leaves] at ordered below
    rw [List.map_cons, feedFrom, settle_absence depth (below leaf List.mem_cons_self) absent rfl rfl]
    exact feed_absence depth absent below ordered

/-- The values of one field are pushed one after the other. -/
theorem rebuilds_values {place : Record.Place} {context : Record → Record} {label : Label}
    (depth : place.length = path.length)
    (each : ∀ {level value outer}, field.Admits value →
      level ≤ Path.repetitionLevel (path ++ [label]) → outer.Sorted →
      Rebuilds place (pick chosen (field.visits (path ++ [label]) column level value))
        (context outer) (context (outer.push label.name (field.eraseValue covered value)))) :
    ∀ {more : List Value} {first : Value} {level : Level} {outer : Record},
      (more ≠ [] → label.cardinality.isRepeated = true) → field.Admits first →
      (∀ value ∈ more, field.Admits value) → level ≤ Path.repetitionLevel (path ++ [label]) →
      outer.Sorted →
      Rebuilds place (pick chosen (field.visitsOf (path ++ [label]) column level (first :: more)))
        (context outer) (context (outer.append label.name
          ((first :: more).map fun value => field.eraseValue covered value)))
  | [], first, level, outer, _, admitted, _, within, sorted => by
    rw [visitsOf, List.flatMap_nil, List.append_nil, List.map_singleton, ← Record.append_push]
    exact each admitted within sorted
  | second :: rest, first, level, outer, repeats, admitted, others, within, sorted => by
    rw [List.forall_mem_cons] at others
    have repeats := repeats (List.cons_ne_nil _ _)
    have further : field.visitsOf (path ++ [label]) column level (first :: second :: rest) =
        field.visits (path ++ [label]) column level first ++
          field.visitsOf (path ++ [label]) column (Path.repetitionLevel (path ++ [label]))
            (second :: rest) := rfl
    rw [further, pick_append, List.map_cons, ← Record.append_push]
    refine (each admitted within sorted).append (rebuilds_values depth each (fun _ => repeats)
      others.1 others.2 (Nat.le_refl _) sorted.change) ?_
    unfold visitsOf
    rw [pick_append, depth]
    exact joins_values repeats others.1 fun visit member => mem_pickLeaves_of_mem_pick member

theorem rebuilds_visitsOf {place : Record.Place} {context : Record → Record} {label : Label}
    {level : Level} {values : List Value} {outer : Record} (depth : place.length = path.length)
    (each : ∀ {level value outer}, field.Admits value →
      level ≤ Path.repetitionLevel (path ++ [label]) → outer.Sorted →
      Rebuilds place (pick chosen (field.visits (path ++ [label]) column level value))
        (context outer) (context (outer.push label.name (field.eraseValue covered value))))
    (allowed : label.cardinality.Allows values.length)
    (admitted : ∀ value ∈ values, field.Admits value) (within : level ≤ Path.repetitionLevel path)
    (sorted : outer.Sorted) :
    Rebuilds place (pick chosen (field.visitsOf (path ++ [label]) column level values))
      (context outer) (context (outer.append label.name
        (values.map fun value => field.eraseValue covered value))) := by
  cases values with
  | nil => exact rebuilds_absence depth (Cardinality.allows_zero_iff.mp allowed)
  | cons first more =>
    have further := Path.repetitionLevel_le_of_isPrefix (List.prefix_append path [label])
    rw [List.forall_mem_cons] at admitted
    exact rebuilds_values depth each (Cardinality.isRepeated_of_allows allowed) admitted.1
      admitted.2 (Nat.le_trans within further) sorted

mutual

/-- A value of a field with a chosen leaf is pushed, erased. -/
theorem rebuilds_visits {path : Path} {column : Nat} {fields : List Field} :
    ∀ {field : Field} {value : Value} {level : Level} {place : Record.Place}
      {context : Record → Record} {outer : Record},
      IsSelection covered chosen path column (field :: fields) → field.Admits value →
      level ≤ Path.repetitionLevel (path ++ [field.label]) →
      pickLeaves chosen (field.leaves (path ++ [field.label]) column) ≠ [] →
      Record.Focus place context → outer.Sorted → place.length = path.length →
      Rebuilds place (pick chosen (field.visits (path ++ [field.label]) column level value))
        (context outer) (context (outer.push field.label.name (field.eraseValue covered value)))
  | .leaf label type, value, level, place, context, outer, _, _, _, picked, focus, _, depth => by
    have among : chosen column = true := by
      by_contra unchosen
      exact picked (List.filter_cons_of_neg unchosen)
    rw [visits, pick, List.filter_cons_of_pos (by exact among), List.filter_nil]
    refine ⟨place, ?_, List.prefix_rfl⟩
    rw [feedFrom, settle_value focus depth rfl rfl]
    rfl
  | .group label children, .scalar content, level, place, context, outer, _, admitted, _, _, _, _,
      _ => by
    rw [Admits] at admitted
    cases admitted
  | .group label children, .record record, level, place, context, outer, selection, admitted, within,
      picked, focus, sorted, depth => by
    rw [Admits] at admitted
    have inside : Rebuilds (place ++ [(label.name, (outer.getAll label.name).length)])
        (pick chosen (visitsAll (path ++ [label]) column level children record))
        (context (outer.push label.name (.record .empty)))
        (context (outer.push label.name
          (.record (eraseFields covered children record Record.empty)))) :=
      rebuilds_visitsAll selection.children admitted.2 within (focus.enter sorted label.name)
        Record.sorted_empty (by simp [depth])
    have heads : (pick chosen (visitsAll (path ++ [label]) column level children
        record)).head?.map (·.1) = _ := head?_pick_visitsAll level record admitted.2
    rw [visits, eraseValue]
    dsimp only [Field.label]
    refine inside.enter focus depth (fun visit picks => ?_) fun none => ?_
    · have member : visit ∈ visitsAll (path ++ [label]) column level children record :=
        List.mem_of_mem_filter picks
      obtain ⟨child, _, through⟩ :=
        path_isPrefix_of_mem_leavesAll (mem_leaves_of_mem_visitsAll member)
      refine ⟨(List.prefix_append _ _).trans through, ?_,
        (fits_of_mem_visitsAll admitted.2 within member).2⟩
      have lengths := through.length_le
      rw [List.length_append, List.length_singleton] at lengths
      exact lengths
    · rw [none] at heads
      exact picked (List.head?_eq_none_iff.mp heads.symm)

/-- **The picked visits of an instance rebuild what erasure leaves of it.** -/
theorem rebuilds_visitsAll {path : Path} {column : Nat} :
    ∀ {fields : List Field} {record : Record} {level : Level} {place : Record.Place}
      {context : Record → Record} {outer : Record},
      IsSelection covered chosen path column fields → AdmitsAll fields record →
      level ≤ Path.repetitionLevel path →
      Record.Focus place context → outer.Sorted → place.length = path.length →
      Rebuilds place (pick chosen (visitsAll path column level fields record))
        (context outer) (context (eraseFields covered fields record outer))
  | [], record, level, place, context, outer, _, _, _, _, _, _ => by
    rw [visitsAll, eraseFields]
    exact .nil place _
  | field :: fields, record, level, place, context, outer, selection, admitted, within, focus, sorted,
      depth => by
    rw [AdmitsAll] at admitted
    rw [visitsAll_cons, pick_append, eraseFields]
    have joins := joins_siblings selection level record
    rw [← depth] at joins
    by_cases covers : covered field.label.id = true
    · rw [if_pos covers]
      refine Rebuilds.append (rebuilds_visitsOf depth (fun taken level_le sorted =>
        rebuilds_visits selection taken level_le (selection.covers_head.mp covers) focus sorted depth)
        admitted.1.1 admitted.1.2 within sorted) ?_ joins
      exact rebuilds_visitsAll selection.tail admitted.2 within focus sorted.append depth
    · have none : pickLeaves chosen (field.leaves (path ++ [field.label]) column) = [] := by
        by_contra some
        exact covers (selection.covers_head.mpr some)
      have skipped : pick chosen (field.visitsOf (path ++ [field.label]) column level
          (record.getAll field.label.name)) = [] :=
        pick_eq_nil (fun visit member => mem_leaves_of_mem_visitsOf mem_leaves_of_mem_visits member)
          none
      rw [if_neg covers, skipped]
      exact rebuilds_visitsAll selection.tail admitted.2 within focus sorted depth

end

end Field

namespace Projection

variable {schema : Schema} {projection : Projection}

/-- The columns of the selected leaves. -/
def chosen (projection : Projection) (schema : Schema) (column : Nat) : Bool :=
  (schema.leaves[column]?).any fun leaf => projection.contains leaf.id

theorem chosen_column {leaf : Node} (member : leaf ∈ schema.leaves) :
    projection.chosen schema leaf.column = projection.contains leaf.id := by
  unfold chosen
  rw [Schema.leaves_getElem?_column member]
  rfl

theorem selected_eq (projection : Projection) (schema : Schema) :
    projection.selected schema = pickLeaves (projection.chosen schema) schema.leaves :=
  List.filter_congr fun _ member => (chosen_column member).symm

/-- The fields that a projection covers are those with a selected leaf. -/
theorem IsOf.isSelection (accepted : schema.IsAccepted) (own : projection.IsOf schema) :
    Field.IsSelection (projection.covers schema) (projection.chosen schema) [] 0 schema.fields := by
  cases accepted.wellFormed with
  | group inhabited words named numbered each =>
    refine ⟨each, numbered, ?_, fun node member => ?_⟩
    · rw [← Schema.leaves_eq]
      exact accepted.nodup_leafIds
    · have among : node ∈ schema.nodes := List.mem_cons_of_mem _ member
      rw [own.covers_iff accepted among (Field.path_ne_nil_of_mem_walkAll member), Ne, pickLeaves,
        List.filter_eq_nil_iff]
      simp only [not_forall, not_not, exists_prop]
      refine exists_congr fun leaf => and_congr_right fun below => ?_
      rw [chosen_column (Schema.leaves_subset among below)]

/-- **The selected visits of a record rebuild what erasure leaves of it.** -/
theorem IsOf.rebuilds (accepted : schema.IsAccepted) (own : projection.IsOf schema)
    {record : Record} (admitted : schema.Admits record) :
    Rebuilds [] (pick (projection.chosen schema) (schema.visits record)) Record.empty
      (projection.erase schema record) := by
  exact Field.rebuilds_visitsAll (own.isSelection accepted) (Schema.admitsAll_of_admits admitted)
    (Nat.le_refl 0) Record.Focus.root Record.sorted_empty rfl

end Projection

end NestedColumns
