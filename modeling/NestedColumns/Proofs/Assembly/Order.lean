/-
The order of reading.

The rows of a record were written in one order, the order of its visits, and assembly reads the rows
of the selected leaves in the order that the machine says. These are the same order: after each
visit of a selected leaf, the machine goes to the leaf of the next such visit
(`Field.follows_visitsAll`, and `Schema.follows_pick_visits` for a whole record).

The induction is on the tree. A list of visits is continued by others, of which only two things
matter: at what level the next row of each leaf stands, and which leaf comes first
(`Continues`). The values of one field are continued by each other, the fields of a group too.
-/

import NestedColumns.Proofs.Machine.Targets
import NestedColumns.Proofs.Striping.Stripe

namespace NestedColumns

/-! ### Chosen columns -/

/-- The visits of chosen columns. -/
def pick (chosen : Nat → Bool) (visits : List Visit) : List Visit :=
  visits.filter fun visit => chosen visit.1.column

/-- The leaves of chosen columns. -/
def pickLeaves (chosen : Nat → Bool) (leaves : List Node) : List Node :=
  leaves.filter fun leaf => chosen leaf.column

section Pick

variable {chosen : Nat → Bool}

@[simp]
theorem pick_append (first second : List Visit) :
    pick chosen (first ++ second) = pick chosen first ++ pick chosen second := by
  simp [pick]

@[simp]
theorem pickLeaves_append (first second : List Node) :
    pickLeaves chosen (first ++ second) = pickLeaves chosen first ++ pickLeaves chosen second := by
  simp [pickLeaves]

theorem pickLeaves_sublist (leaves : List Node) : (pickLeaves chosen leaves).Sublist leaves :=
  List.filter_sublist

theorem pick_map (row : Row) (leaves : List Node) :
    pick chosen (leaves.map fun leaf => (leaf, row)) =
      (pickLeaves chosen leaves).map fun leaf => (leaf, row) := by
  simp [pick, pickLeaves, List.filter_map, Function.comp_def]

/-- The rows of a chosen column are all picked. -/
theorem rowsAt_pick {column : Nat} (among : chosen column = true) (visits : List Visit) :
    rowsAt column (pick chosen visits) = rowsAt column visits := by
  unfold rowsAt pick
  rw [List.filter_filter]
  refine congrArg (List.map _) (List.filter_congr fun visit _ => ?_)
  by_cases here : visit.1.column = column
  · simp [here, among]
  · simp [here]

end Pick

/-- The repetition level of the next row of a column; 0 if there is none. -/
def levelAfter (column : Nat) (visits : List Visit) : Level :=
  ((rowsAt column visits).head?.map (·.repetition)).getD 0

theorem levelAfter_append_of_nil {column : Nat} {visits later : List Visit}
    (absent : rowsAt column visits = []) :
    levelAfter column (visits ++ later) = levelAfter column later := by
  rw [levelAfter, rowsAt_append, absent, List.nil_append, levelAfter]

theorem levelAfter_append_of_startsAt {column : Nat} {visits later : List Visit}
    {level bound : Level} (starts : Field.StartsAt level bound (rowsAt column visits)) :
    levelAfter column (visits ++ later) = level := by
  unfold levelAfter
  rw [rowsAt_append]
  generalize rowsAt column visits = rows at starts ⊢
  cases starts with
  | cons atLevel _ => simp [atLevel]

/-! ### Visits in the order of the machine -/

/-- After each of the visits the machine goes to the leaf of the next one, when others follow. -/
def Follows (machine : Machine) (following : List Visit) : List Visit → Prop
  | [] => True
  | visit :: visits =>
    machine.next? visit.1.id (levelAfter visit.1.column (visits ++ following)) =
        (visits ++ following).head?.map (·.1.id) ∧
      Follows machine following visits

theorem follows_append {machine : Machine} {following second : List Visit} :
    ∀ {first : List Visit}, Follows machine following (first ++ second) ↔
      Follows machine (second ++ following) first ∧ Follows machine following second
  | [] => by simp [Follows]
  | visit :: first => by
    rw [List.cons_append, Follows, Follows, follows_append, List.append_assoc, and_assoc]

/-- What may follow the visits of some leaves: the next row of each of them stands at most at the
level `bound`, and after the last of them the machine goes on to what follows. -/
structure Continues (machine : Machine) (bound : Level) (leaves : List Node)
    (following : List Visit) : Prop where
  levels : ∀ leaf ∈ leaves, levelAfter leaf.column following ≤ bound
  exit : ∀ last, leaves.getLast? = some last →
    machine.next? last.id (levelAfter last.column following) = following.head?.map (·.1.id)

theorem Continues.mono {machine : Machine} {bound bound' : Level} {leaves : List Node}
    {following : List Visit} (le : bound ≤ bound')
    (continues : Continues machine bound leaves following) :
    Continues machine bound' leaves following where
  levels := fun leaf member => Nat.le_trans (continues.levels leaf member) le
  exit := continues.exit

/-- Some of the leaves that a machine reads, in one piece, which share at most the level `bound` with
the leaves around them. -/
structure Piece (machine : Machine) (before leaves after : List Node) (bound : Level) : Prop where
  machine_eq : machine = Machine.ofLeaves (before ++ leaves ++ after)
  order : Machine.IsOrder (before ++ leaves ++ after)
  before_le : ∀ x ∈ before, ∀ leaf ∈ leaves, x.commonRepetition leaf ≤ bound
  after_le : ∀ leaf ∈ leaves, ∀ y ∈ after, leaf.commonRepetition y ≤ bound

theorem Piece.mono {machine : Machine} {before leaves after : List Node} {bound bound' : Level}
    (le : bound ≤ bound') (piece : Piece machine before leaves after bound) :
    Piece machine before leaves after bound' where
  machine_eq := piece.machine_eq
  order := piece.order
  before_le := fun x first leaf second => Nat.le_trans (piece.before_le x first leaf second) le
  after_le := fun leaf first y second => Nat.le_trans (piece.after_le leaf first y second) le

/-- The leaves of a field are a piece of their own if those of its group are. -/
theorem Piece.split {machine : Machine} {before first second after : List Node} {bound : Level}
    (piece : Piece machine before (first ++ second) after bound)
    (parted : ∀ x ∈ first, ∀ y ∈ second, x.commonRepetition y ≤ bound) :
    Piece machine before first (second ++ after) bound ∧
      Piece machine (before ++ first) second after bound := by
  have left : before ++ (first ++ second) ++ after = before ++ first ++ (second ++ after) := by simp
  have right : before ++ (first ++ second) ++ after = before ++ first ++ second ++ after := by simp
  refine ⟨⟨left ▸ piece.machine_eq, left ▸ piece.order, ?_, ?_⟩,
    ⟨right ▸ piece.machine_eq, right ▸ piece.order, ?_, ?_⟩⟩
  · exact fun x outer leaf member => piece.before_le x outer leaf (List.mem_append_left _ member)
  · intro leaf member y outer
    rcases List.mem_append.mp outer with sibling | later
    · exact parted leaf member y sibling
    · exact piece.after_le leaf (List.mem_append_left _ member) y later
  · intro x outer leaf member
    rcases List.mem_append.mp outer with earlier | sibling
    · exact piece.before_le x earlier leaf (List.mem_append_right _ member)
    · exact parted x sibling leaf member
  · exact fun leaf member y outer => piece.after_le leaf (List.mem_append_right _ member) y outer

/-- Visits of the later of two pieces continue those of the earlier one: the machine goes on to the
first leaf of the later piece, or beyond it if it is empty. -/
theorem Continues.siblings {machine : Machine} {before first second after : List Node}
    {bound : Level} {visits following : List Visit}
    (piece : Piece machine before (first ++ second) after bound)
    (parted : ∀ x ∈ first, ∀ y ∈ second, x.commonRepetition y = bound)
    (absent : ∀ leaf ∈ first, rowsAt leaf.column visits = [])
    (starts : visits.head?.map (·.1) = second.head?)
    (continues : Continues machine bound (first ++ second) following) :
    Continues machine bound first (visits ++ following) where
  levels := by
    intro leaf member
    rw [levelAfter_append_of_nil (absent leaf member)]
    exact continues.levels leaf (List.mem_append_left _ member)
  exit := by
    intro last ends
    have member := List.mem_of_getLast? ends
    have low := continues.levels last (List.mem_append_left _ member)
    rw [levelAfter_append_of_nil (absent last member)]
    cases second with
    | nil =>
      rw [List.head?_nil, Option.map_eq_none_iff, List.head?_eq_none_iff] at starts
      rw [starts, List.nil_append]
      exact continues.exit last (by rw [List.append_nil]; exact ends)
    | cons next rest =>
      obtain ⟨visit, found, same⟩ := Option.map_eq_some_iff.mp starts
      obtain ⟨init, rfl⟩ := List.getLast?_eq_some_iff.mp ends
      have near := parted last member next List.mem_cons_self
      have whole : before ++ (init ++ [last] ++ next :: rest) ++ after =
          (before ++ init) ++ last :: next :: (rest ++ after) := by simp
      have order := piece.order
      rw [List.head?_append, found, Option.some_or, Option.map_some, same, piece.machine_eq]
      rw [whole] at order ⊢
      exact order.next?_onward (Nat.le_trans low (Nat.le_of_eq near.symm))

theorem Continues.later {machine : Machine} {first second : List Node} {bound : Level}
    {following : List Visit} (continues : Continues machine bound (first ++ second) following) :
    Continues machine bound second following where
  levels := fun leaf member => continues.levels leaf (List.mem_append_right _ member)
  exit := by
    intro last ends
    refine continues.exit last ?_
    rw [List.getLast?_append, ends, Option.some_or]

/-- One row for each of several leaves follows the machine if neighbours share enough. -/
theorem follows_map {bound : Level} {row : Row} {after : List Node} {following : List Visit} :
    ∀ {leaves before : List Node}, Machine.IsOrder (before ++ leaves ++ after) →
      (leaves.map (·.column)).Nodup →
      (∀ x ∈ leaves, ∀ y ∈ leaves, bound ≤ x.commonRepetition y) →
      Continues (Machine.ofLeaves (before ++ leaves ++ after)) bound leaves following →
      Follows (Machine.ofLeaves (before ++ leaves ++ after)) following
        (leaves.map fun leaf => (leaf, row))
  | [], _, _, _, _, _ => trivial
  | [leaf], before, _, _, _, continues =>
    ⟨continues.exit leaf rfl, trivial⟩
  | leaf :: next :: leaves, before, order, distinct, share, continues => by
    have parts : before ++ leaf :: next :: leaves ++ after =
        before ++ leaf :: next :: (leaves ++ after) := by simp
    have shift : before ++ leaf :: next :: leaves ++ after =
        before ++ [leaf] ++ (next :: leaves) ++ after := by simp
    rw [List.map_cons, List.nodup_cons] at distinct
    have absent : rowsAt leaf.column ((next :: leaves).map fun leaf => (leaf, row)) = [] := by
      refine Field.rowsAt_eq_nil fun visit among same => distinct.1 ?_
      obtain ⟨other, listed, rfl⟩ := List.mem_map.mp among
      exact List.mem_map.mpr ⟨other, listed, same⟩
    have low := continues.levels leaf List.mem_cons_self
    have near := share leaf List.mem_cons_self next (by simp)
    refine ⟨?_, ?_⟩
    · rw [levelAfter_append_of_nil absent, parts]
      exact (parts ▸ order).next?_onward (Nat.le_trans low near)
    · rw [shift] at order continues ⊢
      refine follows_map order distinct.2
        (fun x first y second => share x (List.mem_cons_of_mem _ first) y
          (List.mem_cons_of_mem _ second)) ?_
      exact
        { levels := fun other member => continues.levels other (List.mem_cons_of_mem _ member)
          exit := fun last ends => continues.exit last (by rw [List.getLast?_cons_cons]; exact ends) }

namespace Field

variable {chosen : Nat → Bool}

/-! ### The first leaf -/

theorem pick_eq_nil {leaves : List Node} {visits : List Visit}
    (below : ∀ visit ∈ visits, visit.1 ∈ leaves) (none : pickLeaves chosen leaves = []) :
    pick chosen visits = [] := by
  unfold pickLeaves at none
  rw [List.filter_eq_nil_iff] at none
  unfold pick
  rw [List.filter_eq_nil_iff]
  exact fun visit member => none visit.1 (below visit member)

theorem head?_pick_visitsOf {path : Path} {column : Nat} {level : Level} {field : Field}
    (each : ∀ level value, field.Admits value →
      (pick chosen (field.visits path column level value)).head?.map (·.1) =
        (pickLeaves chosen (field.leaves path column)).head?) :
    ∀ {values : List Value}, (∀ value ∈ values, field.Admits value) →
      (pick chosen (field.visitsOf path column level values)).head?.map (·.1) =
        (pickLeaves chosen (field.leaves path column)).head?
  | [], _ => by
    unfold visitsOf
    rw [pick_map]
    simp [Function.comp_def]
  | first :: more, admitted => by
    have here := each level first (admitted first List.mem_cons_self)
    unfold visitsOf
    rw [pick_append, List.head?_append]
    cases begins : (pickLeaves chosen (field.leaves path column)).head? with
    | some leaf =>
      rw [begins] at here
      obtain ⟨visit, found, same⟩ := Option.map_eq_some_iff.mp here
      rw [found, Option.some_or, Option.map_some, same]
    | none =>
      have noLeaf := List.head?_eq_none_iff.mp begins
      have noVisit : pick chosen (more.flatMap fun value =>
          field.visits path column (Path.repetitionLevel path) value) = [] := by
        refine pick_eq_nil (fun visit member => ?_) noLeaf
        obtain ⟨value, _, among⟩ := List.mem_flatMap.mp member
        exact mem_leaves_of_mem_visits among
      rw [noVisit, List.head?_nil, Option.or_none, here, begins]

mutual

theorem head?_pick_visits {path : Path} {column : Nat} (level : Level) :
    ∀ {field : Field} (value : Value), field.Admits value →
      (pick chosen (field.visits path column level value)).head?.map (·.1) =
        (pickLeaves chosen (field.leaves path column)).head?
  | .leaf label type, value, _ => by
    rw [visits, leaves_leaf, pick, pickLeaves]
    by_cases among : chosen column = true
    · simp [among]
    · simp [among]
  | .group label children, .record record, admitted => by
    rw [Admits] at admitted
    rw [visits, leaves_group]
    exact head?_pick_visitsAll level record admitted.2
  | .group label children, .scalar content, admitted => by
    rw [Admits] at admitted
    cases admitted

/-- The first picked visit of an instance is that of the first picked leaf. -/
theorem head?_pick_visitsAll {path : Path} {column : Nat} (level : Level) :
    ∀ {fields : List Field} (record : Record), AdmitsAll fields record →
      (pick chosen (visitsAll path column level fields record)).head?.map (·.1) =
        (pickLeaves chosen (leavesAll path column fields)).head?
  | [], record, _ => by
    rw [visitsAll, leavesAll_nil]
    rfl
  | field :: fields, record, admitted => by
    rw [AdmitsAll] at admitted
    rw [visitsAll_cons, leavesAll_cons, pick_append, pickLeaves_append, List.head?_append,
      List.head?_append, ← head?_pick_visitsAll level record admitted.2,
      ← head?_pick_visitsOf (fun level value taken => head?_pick_visits level value taken)
        admitted.1.2]
    cases (pick chosen (field.visitsOf (path ++ [field.label]) column level
      (record.getAll field.label.name))).head? <;> rfl

end

/-! ### The order of visits -/

section Values

variable {path : Path} {label : Label} {column : Nat} {field : Field} {before after : List Node}

theorem mem_of_mem_pickLeaves {leaves : List Node} {leaf : Node}
    (member : leaf ∈ pickLeaves chosen leaves) : leaf ∈ leaves ∧ chosen leaf.column = true :=
  List.mem_filter.mp member

/-- The next row of a leaf, when a value follows that has rows for it. -/
theorem levelAfter_pick_visits {level : Level} {value : Value} {following : List Visit} {leaf : Node}
    (admitted : field.Admits value) (member : leaf ∈ pickLeaves chosen (field.leaves path column)) :
    levelAfter leaf.column (pick chosen (field.visits path column level value) ++ following) =
      level := by
  obtain ⟨below, among⟩ := mem_of_mem_pickLeaves member
  have starts := startsAt_visits level value below admitted
  rw [← rowsAt_pick among] at starts
  exact levelAfter_append_of_startsAt starts

/-- A further value of a field continues the one before it: the machine goes back to the first leaf of
the field. -/
theorem continues_value {machine : Machine} {leaves : List Node} {value : Value}
    {following : List Visit}
    (own : leaves = pickLeaves chosen (field.leaves (path ++ [label]) column))
    (piece : Piece machine before leaves after (Path.repetitionLevel path))
    (repeats : label.cardinality.isRepeated = true) (admitted : field.Admits value) :
    Continues machine (Path.repetitionLevel (path ++ [label])) leaves
      (pick chosen (field.visits (path ++ [label]) column (Path.repetitionLevel (path ++ [label]))
        value) ++ following) where
  levels := fun leaf member => Nat.le_of_eq (levelAfter_pick_visits admitted (own ▸ member))
  exit := by
    intro last ends
    have member := List.mem_of_getLast? ends
    obtain ⟨leaf, begins⟩ : ∃ leaf, leaves.head? = some leaf :=
      Option.isSome_iff_exists.mp (List.isSome_head?.mpr (List.ne_nil_of_mem member))
    have starts : (pick chosen (field.visits (path ++ [label]) column
        (Path.repetitionLevel (path ++ [label])) value)).head?.map (·.1) = _ :=
      head?_pick_visits _ value admitted
    rw [← own, begins] at starts
    obtain ⟨visit, found, same⟩ := Option.map_eq_some_iff.mp starts
    have deeper : Path.repetitionLevel path < Path.repetitionLevel (path ++ [label]) := by
      rw [Path.repetitionLevel_append, Path.repetitionLevel_singleton_of_repeated repeats]
      exact Nat.lt_succ_self _
    have leads : ∀ {z}, z ∈ leaves → path ++ [label] <+: z.path := fun among =>
      path_isPrefix_of_mem_leaves (mem_of_mem_pickLeaves (own ▸ among)).1
    rw [levelAfter_pick_visits admitted (own ▸ member), List.head?_append, found, Option.some_or,
      Option.map_some, same, piece.machine_eq]
    refine piece.order.next?_back begins ends (Nat.zero_lt_of_lt deeper) ?_ ?_ ?_
    · exact fun x among => Nat.lt_of_le_of_lt (piece.before_le x among last member) deeper
    · exact fun x among => Node.repetitionLevel_le_commonRepetition (leads among) (leads member)
    · exact fun y among => Nat.lt_of_le_of_lt (piece.after_le last member y among) deeper

/-- The values of one field follow the machine if each of them does. -/
theorem follows_values {machine : Machine} {leaves : List Node}
    (own : leaves = pickLeaves chosen (field.leaves (path ++ [label]) column))
    (piece : Piece machine before leaves after (Path.repetitionLevel path))
    (each : ∀ {following level value}, field.Admits value →
      Continues machine (Path.repetitionLevel (path ++ [label])) leaves following →
      Follows machine following (pick chosen (field.visits (path ++ [label]) column level value)))
    {following : List Visit}
    (continues : Continues machine (Path.repetitionLevel path) leaves following)
    {more : List Value} {first : Value} {level : Level}
    (repeats : more ≠ [] → label.cardinality.isRepeated = true) (admitted : field.Admits first)
    (others : ∀ value ∈ more, field.Admits value) :
    Follows machine following
      (pick chosen (field.visitsOf (path ++ [label]) column level (first :: more))) := by
  induction more generalizing first level with
  | nil =>
    rw [visitsOf, List.flatMap_nil, List.append_nil]
    refine each admitted (continues.mono ?_)
    exact Path.repetitionLevel_le_of_isPrefix (List.prefix_append path [label])
  | cons second rest ih =>
    rw [List.forall_mem_cons] at others
    have repeats := repeats (List.cons_ne_nil _ _)
    have further : field.visitsOf (path ++ [label]) column level (first :: second :: rest) =
        field.visits (path ++ [label]) column level first ++
          field.visitsOf (path ++ [label]) column (Path.repetitionLevel (path ++ [label]))
            (second :: rest) := rfl
    rw [further, pick_append, follows_append]
    refine ⟨each admitted ?_, ih (fun _ => repeats) others.1 others.2⟩
    unfold visitsOf
    rw [pick_append, List.append_assoc]
    exact continues_value own piece repeats others.1

/-- The absence of a field follows the machine. -/
theorem follows_absence {machine : Machine} {leaves : List Node} {level : Level}
    {following : List Visit} (own : leaves = pickLeaves chosen (field.leaves (path ++ [label]) column))
    (piece : Piece machine before leaves after (Path.repetitionLevel path))
    (continues : Continues machine (Path.repetitionLevel path) leaves following) :
    Follows machine following
      (pick chosen (field.visitsOf (path ++ [label]) column level [])) := by
  have above : ∀ {z}, z ∈ leaves → path <+: z.path := fun member =>
    (List.prefix_append path [label]).trans
      (path_isPrefix_of_mem_leaves (mem_of_mem_pickLeaves (own ▸ member)).1)
  rw [piece.machine_eq] at continues ⊢
  unfold visitsOf
  rw [pick_map, ← own]
  refine follows_map piece.order ?_ ?_ continues
  · have columns : ((field.leaves (path ++ [label]) column).map (·.column)).Nodup := by
      rw [map_column_leaves]
      exact List.nodup_range' 1
    rw [own]
    exact columns.sublist ((pickLeaves_sublist _).map _)
  · intro x first y second
    exact Node.repetitionLevel_le_commonRepetition (above first) (above second)

theorem follows_visitsOf {machine : Machine} {leaves : List Node} {level : Level}
    {values : List Value} {following : List Visit}
    (own : leaves = pickLeaves chosen (field.leaves (path ++ [label]) column))
    (piece : Piece machine before leaves after (Path.repetitionLevel path))
    (each : ∀ {following level value}, field.Admits value →
      Continues machine (Path.repetitionLevel (path ++ [label])) leaves following →
      Follows machine following (pick chosen (field.visits (path ++ [label]) column level value)))
    (continues : Continues machine (Path.repetitionLevel path) leaves following)
    (allowed : label.cardinality.Allows values.length)
    (admitted : ∀ value ∈ values, field.Admits value) :
    Follows machine following
      (pick chosen (field.visitsOf (path ++ [label]) column level values)) := by
  cases values with
  | nil => exact follows_absence own piece continues
  | cons first more =>
    rw [List.forall_mem_cons] at admitted
    exact follows_values own piece each continues (Cardinality.isRepeated_of_allows allowed)
      admitted.1 admitted.2

end Values

/-- The leaves of one of several siblings share with those of the others what leads to the siblings.
-/
theorem commonRepetition_of_mem_leaves {path : Path} {column column' : Nat} {field : Field}
    {fields : List Field} (numbered : ((field :: fields).map (·.label.id)).Nodup) {x y : Node}
    (first : x ∈ field.leaves (path ++ [field.label]) column)
    (second : y ∈ leavesAll path column' fields) :
    x.commonRepetition y = Path.repetitionLevel path := by
  obtain ⟨other, among, through⟩ := path_isPrefix_of_mem_leavesAll second
  rw [List.map_cons, List.nodup_cons] at numbered
  refine Node.commonRepetition_of_parted (path_isPrefix_of_mem_leaves first) through ?_
  exact fun same => numbered.1 (List.mem_map.mpr ⟨other, among, same.symm⟩)

mutual

theorem follows_visits {machine : Machine} {path : Path} {column : Nat} {before after : List Node} :
    ∀ {field : Field} {following : List Visit} {level : Level} {value : Value}, field.WellFormed →
      field.Admits value →
      Piece machine before (pickLeaves chosen (field.leaves path column)) after
        (Path.repetitionLevel path) →
      Continues machine (Path.repetitionLevel path)
        (pickLeaves chosen (field.leaves path column)) following →
      Follows machine following (pick chosen (field.visits path column level value))
  | .leaf label type, following, level, value, _, _, _, continues => by
    rw [leaves_leaf, pickLeaves] at continues
    rw [visits, pick]
    by_cases among : chosen column = true
    · rw [List.filter_cons_of_pos (by exact among)] at continues ⊢
      exact ⟨continues.exit _ rfl, trivial⟩
    · rw [List.filter_cons_of_neg (by exact among)]
      trivial
  | .group label children, following, level, .record record, .group _ _ _ numbered each, admitted,
      piece, continues => by
    rw [Admits] at admitted
    rw [visits]
    exact follows_visitsAll each numbered admitted.2 piece continues
  | .group label children, following, level, .scalar content, _, admitted, _, _ => by
    rw [Admits] at admitted
    cases admitted

/-- **The picked visits of an instance follow the machine**, if what comes after them continues them.
-/
theorem follows_visitsAll {machine : Machine} {path : Path} {column : Nat}
    {before after : List Node} :
    ∀ {fields : List Field} {following : List Visit} {level : Level} {record : Record},
      (∀ field ∈ fields, field.WellFormed) → (fields.map (·.label.id)).Nodup →
      AdmitsAll fields record →
      Piece machine before (pickLeaves chosen (leavesAll path column fields)) after
        (Path.repetitionLevel path) →
      Continues machine (Path.repetitionLevel path)
        (pickLeaves chosen (leavesAll path column fields)) following →
      Follows machine following (pick chosen (visitsAll path column level fields record))
  | [], following, level, record, _, _, _, _, _ => by
    rw [visitsAll]
    trivial
  | field :: fields, following, level, record, wellFormed, numbered, admitted, piece, continues => by
    rw [AdmitsAll] at admitted
    rw [leavesAll_cons, pickLeaves_append] at piece continues
    rw [visitsAll_cons, pick_append, follows_append]
    have parted : ∀ x ∈ pickLeaves chosen (field.leaves (path ++ [field.label]) column),
        ∀ y ∈ pickLeaves chosen (leavesAll path (column + field.leafCount) fields),
        x.commonRepetition y = Path.repetitionLevel path := fun x first y second =>
      commonRepetition_of_mem_leaves numbered (mem_of_mem_pickLeaves first).1
        (mem_of_mem_pickLeaves second).1
    obtain ⟨here, later⟩ := piece.split fun x first y second => Nat.le_of_eq (parted x first y second)
    have absent : ∀ leaf ∈ pickLeaves chosen (field.leaves (path ++ [field.label]) column),
        rowsAt leaf.column (pick chosen
          (visitsAll path (column + field.leafCount) level fields record)) = [] := by
      refine fun leaf member => rowsAt_eq_nil fun visit among same => ?_
      have below := mem_leaves_of_mem_visitsAll (List.mem_of_mem_filter among)
      exact column_ne_of_mem_leaves (mem_of_mem_pickLeaves member).1 below same.symm
    have siblings := Continues.siblings piece parted absent
      (head?_pick_visitsAll level record admitted.2) continues
    rw [List.forall_mem_cons] at wellFormed
    have further := Path.repetitionLevel_le_of_isPrefix (List.prefix_append path [field.label])
    refine ⟨follows_visitsOf rfl here (fun taken continues => ?_) siblings admitted.1.1 admitted.1.2,
      ?_⟩
    · exact follows_visits wellFormed.1 taken (here.mono further) continues
    · exact follows_visitsAll wellFormed.2 (List.nodup_cons.mp (List.map_cons ▸ numbered)).2
        admitted.2 later continues.later

end

end Field

/-- **The rows of a record are written in the order in which the machine reads them.** -/
theorem Schema.follows_pick_visits {schema : Schema} (accepted : schema.IsAccepted)
    (chosen : Nat → Bool) {record : Record} (admitted : schema.Admits record) :
    Follows (Machine.ofLeaves (pickLeaves chosen schema.leaves)) []
      (pick chosen (schema.visits record)) := by
  have order : Machine.IsOrder (pickLeaves chosen schema.leaves) :=
    Machine.isOrder_of_sublist accepted (pickLeaves_sublist _)
  cases accepted.wellFormed with
  | group inhabited words named numbered each =>
    have piece : Piece (Machine.ofLeaves (pickLeaves chosen schema.leaves)) []
        (pickLeaves chosen schema.leaves) [] (Path.repetitionLevel []) := by
      refine ⟨?_, ?_, by simp, by simp⟩
      · rw [List.nil_append, List.append_nil]
      · rw [List.nil_append, List.append_nil]
        exact order
    refine Field.follows_visitsAll each numbered (admitsAll_of_admits admitted) piece ?_
    · refine ⟨fun leaf _ => Nat.zero_le _, fun last ends => ?_⟩
      obtain ⟨init, parts⟩ := List.getLast?_eq_some_iff.mp ends
      rw [← leaves_eq] at parts
      rw [parts] at order ⊢
      exact order.next?_end

end NestedColumns
