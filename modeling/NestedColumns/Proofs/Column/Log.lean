/-
The column as a log.

A column is filled by calls that append rows, of which it refuses some. `Column.log` lists the rows
that it takes, in order.

* `afterCalls_holding` — after any calls, a column holds its log and nothing else;
* `isLog_holding` — what is read of a column then is its log, row for row, and the `k`-th record
  starts at the `k`-th row of level 0;
* `tiles_holding` — the ranges of the records lie side by side, from the first row of level 0 to the
  end of the column. A column may begin with rows of other levels, which belong to no record.
-/

import NestedColumns.Proofs.Column.Filled

namespace NestedColumns

namespace Column

/-! ### Any calls -/

/-- The column after calls that append the given rows. -/
def afterCalls (column : Column) (calls : List Row) : Column :=
  calls.foldl (fun column row => (column.append row).1) column

/-- The rows of the calls that succeed, in order. -/
def log : Column → List Row → List Row
  | _, [] => []
  | column, row :: calls =>
    match column.append row with
    | (longer, .ok _) => row :: longer.log calls
    | (same, .error _) => same.log calls

variable {leaf : Node} {rows : List Row}

/-- **A call** either appends its row, at the position that it answers with, or changes nothing. -/
theorem append_holding_cases (isLeaf : leaf.isLeaf = true) (row : Row) :
    (row.Fits leaf ∧
      (holding leaf rows).append row = (holding leaf (rows ++ [row]), .ok rows.length)) ∨
    ∃ fault, (holding leaf rows).append row = (holding leaf rows, .error fault) := by
  by_cases fits : row.Fits leaf
  · exact .inl ⟨fits, append_holding fits⟩
  · exact .inr (append_refused isLeaf fits)

/-- **After any calls, a column holds its log and nothing else.** -/
theorem afterCalls_holding (isLeaf : leaf.isLeaf = true) (fits : ∀ row ∈ rows, row.Fits leaf)
    (calls : List Row) :
    (holding leaf rows).afterCalls calls = holding leaf (rows ++ (holding leaf rows).log calls) ∧
      ∀ row ∈ rows ++ (holding leaf rows).log calls, row.Fits leaf := by
  induction calls generalizing rows with
  | nil =>
    rw [log, List.append_nil]
    exact ⟨rfl, fits⟩
  | cons row calls ih =>
    rw [log, afterCalls, List.foldl_cons]
    rcases append_holding_cases isLeaf row with ⟨fitsLast, taken⟩ | ⟨fault, refused⟩
    · have fitsLonger : ∀ row' ∈ rows ++ [row], row'.Fits leaf := by
        simpa [or_imp, forall_and] using And.intro fits fitsLast
      have done := ih fitsLonger
      rw [taken]
      dsimp only
      rw [List.append_assoc, List.singleton_append] at done
      exact done
    · rw [refused]
      exact ih fits

/-! ### What is read -/

/-- The row at a position starts a record. -/
def OpensAt (rows : List Row) (position : Nat) : Prop :=
  ∃ row, rows[position]? = some row ∧ row.repetition = 0

/-- Reading a column gives the rows of a list and an underrun past its end, and its index finds the
rows of level 0: the `k`-th is the one with `k` others before it. -/
structure IsLog (path : String) (rows : List Row) (column : Column) : Prop where
  size : column.size = rows.length
  get_eq : ∀ position, column.get position =
    match rows[position]? with
    | some row => .ok row
    | none => .error (.storeUnderrun path position rows.length)
  recordCount : column.recordCount = rows.countP (·.repetition = 0)
  recordStart?_iff : ∀ record start, column.recordStart? record = some start ↔
    OpensAt rows start ∧ (rows.take start).countP (·.repetition = 0) = record

theorem exists_recordStart?_iff_opensAt {position : Nat} :
    (∃ record, (holding leaf rows).recordStart? record = some position) ↔
      OpensAt rows position := by
  refine exists_recordStart?_iff.trans ?_
  unfold OpensAt
  rw [holding, List.getElem?_toArray, List.getElem?_map, Option.map_eq_some_iff]

theorem recordCount_holding_eq :
    (holding leaf rows).recordCount = rows.countP (·.repetition = 0) := by
  unfold recordCount
  rw [holding, List.size_toArray, List.length_findIdxs]

/-- **The `k`-th record starts at the `k`-th row of level 0.** -/
theorem recordStart?_holding_eq_some_iff {record start : Nat} :
    (holding leaf rows).recordStart? record = some start ↔
      OpensAt rows start ∧ (rows.take start).countP (·.repetition = 0) = record := by
  rw [← List.countPBefore_eq_countP_take]
  constructor
  · intro starts
    refine ⟨exists_recordStart?_iff_opensAt.mp ⟨record, starts⟩, ?_⟩
    rw [recordStart?_holding_getElem?] at starts
    obtain ⟨inside, rfl⟩ := List.getElem?_eq_some_iff.mp starts
    rw [List.length_findIdxs] at inside
    rw [List.getElem_findIdxs_eq_findIdxNth, List.countPBefore_findIdxNth_of_lt_countP inside]
  · rintro ⟨⟨row, found, level⟩, rfl⟩
    obtain ⟨inside, rfl⟩ := List.getElem?_eq_some_iff.mp found
    have opens : decide (rows[start].repetition = 0) = true := decide_eq_true level
    have listed : rows.countPBefore (·.repetition = 0) start <
        (rows.findIdxs (·.repetition = 0)).length := by
      rw [List.length_findIdxs]
      exact List.countPBefore_lt_countP_of_lt_length_of_pos opens
    rw [recordStart?_holding_getElem?, List.getElem?_eq_getElem listed,
      List.getElem_findIdxs_eq_findIdxNth, List.findIdxNth_countPBefore_of_lt_length_of_pos opens]

/-- **A column that holds rows is a log of them.** -/
theorem isLog_holding (fits : ∀ row ∈ rows, row.Fits leaf) :
    IsLog leaf.pathText rows (holding leaf rows) where
  size := size_holding
  get_eq position := by
    unfold get
    rw [get?_holding fits, size_holding]
    rfl
  recordCount := recordCount_holding_eq
  recordStart?_iff _ _ := recordStart?_holding_eq_some_iff

/-! ### The ranges of the records -/

/-- A position lies among the rows of a record. -/
def InRecord (column : Column) (record position : Nat) : Prop :=
  ∃ first stop, column.recordRows? record = some (first, stop) ∧ first ≤ position ∧ position < stop

/-- The ranges of the records of a column lie side by side. Each starts with its only row of level 0;
together they have all rows that stand at or after such a row. -/
structure Tiles (rows : List Row) (column : Column) : Prop where
  exists_iff : ∀ record, (∃ range, column.recordRows? record = some range) ↔
    record < column.recordCount
  nonempty : ∀ record first stop, column.recordRows? record = some (first, stop) → first < stop
  consecutive : ∀ record first stop next nextStop, column.recordRows? record = some (first, stop) →
    column.recordRows? (record + 1) = some (next, nextStop) → stop = next
  last : ∀ record first stop, column.recordRows? record = some (first, stop) →
    record + 1 = column.recordCount → stop = rows.length
  opensAt_iff : ∀ record first stop, column.recordRows? record = some (first, stop) →
    ∀ position, first ≤ position → position < stop → (OpensAt rows position ↔ position = first)
  disjoint : ∀ record other position, column.InRecord record position →
    column.InRecord other position → record = other
  covers : ∀ position, (∃ record, column.InRecord record position) ↔
    position < rows.length ∧ ∃ earlier ≤ position, OpensAt rows earlier

theorem recordRows?_eq_some_iff {column : Column} {record first stop : Nat} :
    column.recordRows? record = some (first, stop) ↔ column.recordStart? record = some first ∧
      (column.recordStart? (record + 1)).getD column.size = stop := by
  unfold recordRows?
  simp [Option.map_eq_some_iff]

theorem exists_recordRows?_iff {column : Column} {record : Nat} :
    (∃ range, column.recordRows? record = some range) ↔ record < column.recordCount := by
  unfold recordRows? recordStart? recordCount
  rw [← Option.isSome_iff_exists, Option.isSome_map]
  simp

section Ranges

variable {record first stop : Nat}
  (range : (holding leaf rows).recordRows? record = some (first, stop))

include range

/-- The rows of a record go on up to the next boundary. -/
theorem boundary_of_recordRows? : first < stop ∧ (holding leaf rows).IsBoundary stop ∧
    ∀ later, (holding leaf rows).IsBoundary later → first < later → stop ≤ later := by
  obtain ⟨starts, _⟩ := recordRows?_eq_some_iff.mp range
  obtain ⟨stop', range', rest⟩ := exists_recordRows? starts
  rw [range] at range'
  cases range'
  exact rest

theorem stop_le_of_recordRows? : stop ≤ rows.length := by
  obtain ⟨starts, _⟩ := recordRows?_eq_some_iff.mp range
  have least := (boundary_of_recordRows? range).2.2 _ (.inl rfl) (lt_size_of_recordStart? starts)
  rwa [size_holding] at least

theorem opensAt_first : OpensAt rows first :=
  exists_recordStart?_iff_opensAt.mp ⟨record, (recordRows?_eq_some_iff.mp range).1⟩

theorem opensAt_iff_of_recordRows? {position : Nat} (onward : first ≤ position)
    (below : position < stop) : OpensAt rows position ↔ position = first := by
  constructor
  · intro opens
    by_contra differs
    have boundary : (holding leaf rows).IsBoundary position :=
      .inr (exists_recordStart?_iff_opensAt.mpr opens)
    have beyond := (boundary_of_recordRows? range).2.2 position boundary (by omega)
    omega
  · rintro rfl
    exact opensAt_first range

end Ranges

/-- The rows of a record end before those of a later one start. -/
theorem not_inRecord_of_lt {record other position : Nat} (before : record < other)
    (inside : (holding leaf rows).InRecord record position) :
    ¬ (holding leaf rows).InRecord other position := by
  rintro ⟨first', stop', range', onward, _⟩
  obtain ⟨first, stop, range, _, below⟩ := inside
  have starts := (recordRows?_eq_some_iff.mp range).1
  have later := (recordRows?_eq_some_iff.mp range').1
  have further := (recordStart?_lt_iff starts later).mpr before
  have beyond := (boundary_of_recordRows? range).2.2 first' (.inr ⟨_, later⟩) further
  omega

/-- A row of level 0 lies in the record that it starts. -/
theorem exists_inRecord_of_opensAt {position : Nat} (opens : OpensAt rows position) :
    ∃ record, (holding leaf rows).InRecord record position := by
  obtain ⟨record, starts⟩ := exists_recordStart?_iff_opensAt.mpr opens
  obtain ⟨stop, range, further, _⟩ := exists_recordRows? starts
  exact ⟨record, position, stop, range, Nat.le_refl _, further⟩

/-- **Every row from the first of level 0 on lies in a record.** -/
theorem exists_inRecord {position : Nat} (inside : position < rows.length)
    (opened : ∃ earlier ≤ position, OpensAt rows earlier) :
    ∃ record, (holding leaf rows).InRecord record position := by
  -- A row that starts no record goes on in the record of the row before it.
  induction position with
  | zero =>
    obtain ⟨earlier, upTo, opens⟩ := opened
    exact exists_inRecord_of_opensAt (Nat.le_zero.mp upTo ▸ opens)
  | succ position ih =>
    by_cases opens : OpensAt rows (position + 1)
    · exact exists_inRecord_of_opensAt opens
    obtain ⟨earlier, upTo, opensEarlier⟩ := opened
    have before : earlier ≤ position := by
      refine Nat.le_of_lt_succ (Nat.lt_of_le_of_ne upTo ?_)
      rintro rfl
      exact opens opensEarlier
    obtain ⟨record, first, stop, range, onward, below⟩ :=
      ih (by omega) ⟨earlier, before, opensEarlier⟩
    obtain ⟨_, boundary, _⟩ := boundary_of_recordRows? range
    refine ⟨record, first, stop, range, by omega, Nat.lt_of_le_of_ne below ?_⟩
    rintro rfl
    rcases boundary with atEnd | starts
    · rw [size_holding] at atEnd
      omega
    · exact opens (exists_recordStart?_iff_opensAt.mp starts)

/-- **The records of a column tile its rows** from the first of level 0 to the end. -/
theorem tiles_holding : Tiles rows (holding leaf rows) where
  exists_iff _ := exists_recordRows?_iff
  nonempty _ _ _ range := (boundary_of_recordRows? range).1
  consecutive record first stop next nextStop range nextRange := by
    obtain ⟨_, goesOn⟩ := recordRows?_eq_some_iff.mp range
    obtain ⟨starts, _⟩ := recordRows?_eq_some_iff.mp nextRange
    rw [starts, Option.getD_some] at goesOn
    exact goesOn.symm
  last record first stop range isLast := by
    obtain ⟨_, goesOn⟩ := recordRows?_eq_some_iff.mp range
    have none : (holding leaf rows).recordStart? (record + 1) = none :=
      Array.getElem?_eq_none_iff.mpr (Nat.le_of_eq isLast.symm)
    rw [none, Option.getD_none, size_holding] at goesOn
    exact goesOn.symm
  opensAt_iff _ _ _ range _ onward below := opensAt_iff_of_recordRows? range onward below
  disjoint record other position inside inside' := by
    rcases Nat.lt_trichotomy record other with before | same | after
    · exact absurd inside' (not_inRecord_of_lt before inside)
    · exact same
    · exact absurd inside (not_inRecord_of_lt after inside')
  covers position := by
    constructor
    · rintro ⟨record, first, stop, range, onward, below⟩
      exact ⟨Nat.lt_of_lt_of_le below (stop_le_of_recordRows? range), first, onward,
        opensAt_first range⟩
    · rintro ⟨inside, opened⟩
      exact exists_inRecord inside opened

/-! ### The column of a leaf -/

/-- **A column is a log.** For every leaf there is an empty column. After any calls, a further one
either appends its row, and answers with the number of rows taken before, or changes nothing; what is
read are the rows taken, in order; and the ranges of the records tile them. -/
theorem isLog_afterCalls {schema : Schema} (accepted : schema.IsAccepted) {leaf : Node}
    (member : leaf ∈ schema.leaves) :
    ∃ start, Column.new schema leaf.id = .ok start ∧ ∀ calls,
      (∀ row, (∃ longer, (start.afterCalls calls).append row =
          (longer, .ok (start.log calls).length)) ∨
        ∃ fault, (start.afterCalls calls).append row = (start.afterCalls calls, .error fault)) ∧
      IsLog leaf.pathText (start.log calls) (start.afterCalls calls) ∧
      Tiles (start.log calls) (start.afterCalls calls) := by
  obtain ⟨listed, isLeaf⟩ := List.mem_filter.mp member
  refine ⟨holding leaf [], ?_, fun calls => ?_⟩
  · unfold Column.new
    rw [accepted.resolve_id listed]
    exact ofNode_eq_holding isLeaf
  · have none : ∀ row ∈ ([] : List Row), row.Fits leaf := by simp
    obtain ⟨holds, fits⟩ := afterCalls_holding isLeaf none calls
    rw [List.nil_append] at holds fits
    rw [holds]
    refine ⟨fun row => ?_, isLog_holding fits, tiles_holding⟩
    rcases append_holding_cases isLeaf row with ⟨_, taken⟩ | refused
    · exact .inl ⟨_, taken⟩
    · exact .inr refused

/-- Of six rows three are taken, the first of which belongs to no record. -/
theorem isLog_countries : Sample.documentType.IsAccepted ∧
    ∃ leaf ∈ Sample.documentType.leaves, leaf.pathText = "Name.Language.Country" ∧
      ∃ start, Column.new Sample.documentType leaf.id = .ok start ∧
        let filled := start.afterCalls
          [⟨some (.scalar (.string "us")), 1, 3⟩, ⟨none, 0, 3⟩, ⟨none, 0, 1⟩,
            ⟨some (.scalar (.int64 44)), 0, 3⟩, ⟨none, 2, 2⟩, ⟨none, 3, 2⟩]
        filled.get 2 = .ok ⟨none, 2, 2⟩ ∧
          filled.get 3 = .error (.storeUnderrun "Name.Language.Country" 3 3) ∧
          filled.recordRows? 0 = some (1, 3) ∧ ¬ ∃ record, filled.InRecord record 0 := by
  have member : Sample.documentType.leaves[4] ∈ Sample.documentType.leaves := List.getElem_mem _
  have path : Sample.documentType.leaves[4].pathText = "Name.Language.Country" := by decide +kernel
  obtain ⟨start, made, always⟩ := isLog_afterCalls Sample.documentType_isAccepted member
  refine ⟨Sample.documentType_isAccepted, _, member, path, start, made, ?_⟩
  obtain ⟨_, isLog, tiles⟩ := always
    [⟨some (.scalar (.string "us")), 1, 3⟩, ⟨none, 0, 3⟩, ⟨none, 0, 1⟩,
      ⟨some (.scalar (.int64 44)), 0, 3⟩, ⟨none, 2, 2⟩, ⟨none, 3, 2⟩]
  cases made
  refine ⟨isLog.get_eq 2, path ▸ isLog.get_eq 3, rfl, fun inside => ?_⟩
  obtain ⟨_, earlier, upTo, row, found, opens⟩ := (tiles.covers 0).mp inside
  obtain rfl := Nat.le_zero.mp upTo
  cases found
  cases opens

end Column

end NestedColumns
