/-
Columns and the rows they hold.

`Column.holding leaf rows` is the column of a leaf that holds the given rows. A column that takes rows
one by one is always of this form:

* `append_holding`, `append_refused` — a row that fits is taken, at the end, and any other leaves the
  column as it was;
* `truncate_holding` — cutting a column back leaves the rows before the cut;
* `get?_holding` — what is read at a position is the row that was written there;
* `recordStart?_holding`, `recordRows?_holding` — the index of records finds the first row of each
  record, and the row after its last.
-/

import NestedColumns.Proofs.Striping.Stripe

namespace NestedColumns.Column

/-- The bare value that a column of the given type stores for the value of a row. -/
def bareValue (type : ScalarType) : Option Value → type.Carrier
  | none => type.filler
  | some value => (value.toCarrier? type).getD type.filler

/-- The column of a leaf that holds the given rows. -/
def holding (leaf : Node) (rows : List Row) : Column :=
  let type := leaf.type?.getD .boolean
  { field := leaf.id
    path := leaf.pathText
    maxRepetition := leaf.maxRepetition
    maxDefinition := leaf.maxDefinition
    type := type
    values := (rows.map fun row => bareValue type row.value).toArray
    repetitionLevels := (rows.map (·.repetition)).toArray
    definitionLevels := (rows.map (·.definition)).toArray
    recordStarts := (rows.findIdxs (·.repetition = 0)).toArray }

variable {leaf : Node} {rows : List Row}

@[simp]
theorem field_holding : (holding leaf rows).field = leaf.id := rfl

@[simp]
theorem size_holding : (holding leaf rows).size = rows.length := by
  simp [size, holding]

theorem ofNode_eq_holding (isLeaf : leaf.isLeaf = true) : ofNode leaf = .ok (holding leaf []) := by
  obtain ⟨type, typed⟩ := leaf.exists_type isLeaf
  unfold ofNode holding
  rw [typed]
  rfl

/-! ### Writing -/

/-- Nothing speaks against a row that fits. -/
theorem refusal?_holding {row : Row} (fits : row.Fits leaf) :
    (holding leaf rows).refusal? row = none := by
  have repetition : ¬ (holding leaf rows).maxRepetition < row.repetition :=
    Nat.not_lt_of_le fits.repetition_le
  have definition : ¬ (holding leaf rows).maxDefinition < row.definition :=
    Nat.not_lt_of_le fits.definition_le
  unfold refusal?
  rw [if_neg repetition, if_neg definition]
  show (if (row.value.isSome != (row.definition == leaf.maxDefinition)) = true then _ else _) = none
  rcases fits.value with ⟨absent, below⟩ | ⟨content, present, typed, same⟩
  · have differ : row.definition ≠ leaf.maxDefinition := Nat.ne_of_lt below
    simp [absent, differ]
  · have kind : (Value.scalar content).kind = .scalar (holding leaf rows).type := by
      show ValueKind.scalar content.type = .scalar (leaf.type?.getD .boolean)
      rw [typed, Option.getD_some]
    simp [present, same, kind]

/-- A scalar of the type of the leaf is stored as it is. -/
theorem toCarrier?_eq_bareValue {content : Scalar} (typed : leaf.type? = some content.type) :
    content.toCarrier? (leaf.type?.getD .boolean) =
      some (bareValue (leaf.type?.getD .boolean) (some (.scalar content))) := by
  rw [typed]
  cases content <;> rfl

theorem push_some {column : Column} {value : Value} {bare : column.type.Carrier}
    (found : value.toCarrier? column.type = some bare) :
    column.push (some value) = ({ column with values := column.values.push bare }, true) := by
  rw [push, found]

theorem push_holding {row : Row} (fits : row.Fits leaf) :
    (holding leaf rows).push row.value =
      ({ holding leaf rows with
          values := (holding leaf rows).values.push
            (bareValue (leaf.type?.getD .boolean) row.value) }, true) := by
  rcases fits.value with ⟨absent, _⟩ | ⟨content, present, typed, _⟩
  · rw [absent]
    rfl
  · rw [present]
    exact push_some (toCarrier?_eq_bareValue typed)

/-- **A row that fits is appended.** -/
theorem append_holding {row : Row} (fits : row.Fits leaf) :
    (holding leaf rows).append row = (holding leaf (rows ++ [row]), .ok rows.length) := by
  unfold append
  rw [refusal?_holding fits, push_holding fits, size_holding]
  by_cases starts : row.repetition = 0
  · simp [holding, starts, List.findIdxs_append]
  · simp [holding, starts, List.findIdxs_append]

/-- A row that fits is taken, at the end. -/
theorem insert_holding {row : Row} (fits : row.Fits leaf) :
    (holding leaf rows).insert row = .ok (holding leaf (rows ++ [row]), rows.length) := by
  rw [insert, append_holding fits]

/-- A row that nothing speaks against fits. -/
theorem fits_of_refusal? {row : Row} (isLeaf : leaf.isLeaf = true)
    (accepted : (holding leaf rows).refusal? row = none) : row.Fits leaf := by
  obtain ⟨type, typed⟩ := leaf.exists_type isLeaf
  unfold refusal? at accepted
  by_cases repetition : (holding leaf rows).maxRepetition < row.repetition
  · rw [if_pos repetition] at accepted
    cases accepted
  by_cases definition : (holding leaf rows).maxDefinition < row.definition
  · rw [if_neg repetition, if_pos definition] at accepted
    cases accepted
  by_cases presence :
      (row.value.isSome != (row.definition == (holding leaf rows).maxDefinition)) = true
  · rw [if_neg repetition, if_neg definition, if_pos presence] at accepted
    cases accepted
  rw [if_neg repetition, if_neg definition, if_neg presence] at accepted
  have present : row.value.isSome = (row.definition == leaf.maxDefinition) :=
    bne_eq_false_iff_eq.mp (Bool.not_eq_true _ ▸ presence)
  have within : row.definition ≤ leaf.maxDefinition := Nat.le_of_not_lt definition
  refine ⟨Nat.le_of_not_lt repetition, ?_⟩
  cases content : row.value with
  | none =>
    rw [content] at present
    exact .inl ⟨rfl, Nat.lt_of_le_of_ne within (by simpa using present.symm)⟩
  | some value =>
    rw [content] at present accepted
    dsimp only at accepted
    split at accepted
    · rename_i kind
      cases value with
      | record inner => cases kind
      | scalar scalar =>
        have same : scalar.type = leaf.type?.getD .boolean := ValueKind.scalar.inj kind
        rw [typed, Option.getD_some] at same
        exact .inr ⟨scalar, rfl, same ▸ typed, by simpa using present.symm⟩
    · cases accepted

/-- **A row that does not fit is refused**, and the column is left as it was. -/
theorem append_refused {row : Row} (isLeaf : leaf.isLeaf = true) (refused : ¬ row.Fits leaf) :
    ∃ fault, (holding leaf rows).append row = (holding leaf rows, .error fault) := by
  cases found : (holding leaf rows).refusal? row with
  | none => exact absurd (fits_of_refusal? isLeaf found) refused
  | some fault => exact ⟨fault, by rw [append, found]⟩

theorem insertAll_holding {more : List Row} (fits : ∀ row ∈ more, row.Fits leaf) :
    (holding leaf rows).insertAll more = (holding leaf (rows ++ more), .ok ()) := by
  induction more generalizing rows with
  | nil => rw [insertAll, List.append_nil]
  | cons row more ih =>
    rw [List.forall_mem_cons] at fits
    rw [insertAll, insert_holding fits.1]
    dsimp only
    rw [ih fits.2, List.append_assoc, List.singleton_append]

/-! ### Cutting back -/

/-- The indices below a bound are those in the list that is cut there. -/
theorem takeWhile_findIdxs {α : Type} (p : α → Bool) {list : List α} {size : Nat}
    (within : size ≤ list.length) :
    (list.findIdxs p).takeWhile (· < size) = (list.take size).findIdxs p := by
  have length : (list.take size).length = size := List.length_take_of_le within
  have before : ∀ index ∈ (list.take size).findIdxs p, decide (index < size) = true := by
    intro index member
    have below := List.lt_add_of_mem_findIdxs index member
    exact decide_eq_true (by omega)
  have behind : ((list.drop size).findIdxs p (0 + (list.take size).length)).takeWhile
      (· < size) = [] := by
    generalize indices : (list.drop size).findIdxs p (0 + (list.take size).length) = later
    cases later with
    | nil => rfl
    | cons index more =>
      have beyond := List.ge_of_mem_findIdxs index (indices ▸ List.mem_cons_self)
      exact List.takeWhile_cons_of_neg (by simp; omega)
  conv_lhs => rw [← List.take_append_drop size list, List.findIdxs_append]
  rw [List.takeWhile_append_of_pos before, behind, List.append_nil]

/-- **A column that is cut back** holds the rows before the cut. -/
theorem truncate_holding (size : Nat) :
    (holding leaf rows).truncate size = holding leaf (rows.take size) := by
  unfold truncate
  rw [size_holding]
  split
  · rename_i within
    rw [List.take_of_length_le within]
  · rename_i longer
    have starts := takeWhile_findIdxs (fun row : Row => decide (row.repetition = 0))
      (Nat.le_of_not_le longer)
    unfold holding
    rw [← starts]
    simp

/-! ### Reading -/

/-- What is shown of the bare value of a row that fits is its value. -/
theorem shown_bareValue {row : Row} (fits : row.Fits leaf) :
    (if row.definition = leaf.maxDefinition then
      some (Value.scalar (Scalar.ofCarrier (leaf.type?.getD .boolean)
        (bareValue (leaf.type?.getD .boolean) row.value)))
      else none) = row.value := by
  rcases fits.value with ⟨absent, below⟩ | ⟨content, present, typed, same⟩
  · rw [if_neg (Nat.ne_of_lt below), absent]
  · have shown := (Scalar.toCarrier?_eq_some_iff _ _ _).mp (toCarrier?_eq_bareValue typed)
    rw [if_pos same, present, ← shown]

/-- **What is read at a position is the row that was written there.** -/
theorem get?_holding (fits : ∀ row ∈ rows, row.Fits leaf) (position : Nat) :
    (holding leaf rows).get? position = rows[position]? := by
  cases found : rows[position]? with
  | none => simp [get?, holding, found]
  | some row =>
    have shown := shown_bareValue (fits row (List.mem_of_getElem? found))
    have repetition : (holding leaf rows).repetitionLevels[position]? = some row.repetition := by
      simp [holding, found]
    have definition : (holding leaf rows).definitionLevels[position]? = some row.definition := by
      simp [holding, found]
    have value : (holding leaf rows).values[position]? =
        some (bareValue (leaf.type?.getD .boolean) row.value) := by
      show (rows.map fun row => bareValue (leaf.type?.getD .boolean) row.value).toArray[position]? = _
      simp [found]
    unfold get?
    rw [repetition, definition, value]
    refine congrArg some ?_
    show Row.mk _ row.repetition row.definition = row
    exact congrArg (Row.mk · row.repetition row.definition) shown

/-- A column shows its rows in the order in which they were written. -/
theorem rows_holding (fits : ∀ row ∈ rows, row.Fits leaf) : (holding leaf rows).rows = rows := by
  have each : ((List.range rows.length).map fun position => rows[position]?) = rows.map some := by
    ext1 position
    by_cases inside : position < rows.length
    · simp [inside]
    · simp [inside]
  have shown : (holding leaf rows).get? = fun position => rows[position]? :=
    funext (get?_holding fits)
  unfold Column.rows
  rw [size_holding, shown]
  calc (List.range rows.length).filterMap (fun position => rows[position]?)
      = ((List.range rows.length).map fun position => rows[position]?).filterMap id := by
        rw [List.filterMap_map, Function.id_comp]
    _ = rows := by rw [each, List.filterMap_map]; simp

/-- The rows of a record: the first starts the record, and no other does. -/
abbrev IsRecord (rows : List Row) : Prop :=
  Field.StartsAt 0 0 rows

theorem findIdxs_record {start : Nat} (record : IsRecord rows) :
    rows.findIdxs (·.repetition = 0) start = [start] := by
  cases record with
  | cons atLevel beyond =>
    rw [List.findIdxs_cons, if_pos (by simp [atLevel])]
    refine congrArg (start :: ·) (List.findIdxs_eq_nil_iff.mpr ?_)
    intro row member
    exact decide_eq_false (Nat.ne_of_gt (beyond row member))

theorem findIdxs_records {records : List (List Row)} (start : Nat)
    (each : ∀ rows ∈ records, IsRecord rows) (index : Nat) :
    (records.flatten.findIdxs (·.repetition = 0) start)[index]? =
      if index < records.length then some (start + (records.take index).flatten.length) else none := by
  induction records generalizing start index with
  | nil => simp
  | cons rows records ih =>
    rw [List.forall_mem_cons] at each
    rw [List.flatten_cons, List.findIdxs_append, findIdxs_record each.1, List.singleton_append]
    cases index with
    | zero => simp
    | succ index =>
      rw [List.getElem?_cons_succ, ih _ each.2]
      simp [Nat.add_assoc]

/-- Each record starts behind the rows of those before it. -/
theorem findIdxs_records_eq {records : List (List Row)} (start : Nat)
    (each : ∀ rows ∈ records, IsRecord rows) :
    records.flatten.findIdxs (·.repetition = 0) start =
      (List.range records.length).map fun index => start + (records.take index).flatten.length := by
  ext1 index
  rw [findIdxs_records start each, List.getElem?_map]
  by_cases inside : index < records.length
  · simp [inside]
  · simp [inside]

theorem length_findIdxs_records {records : List (List Row)} (start : Nat)
    (each : ∀ rows ∈ records, IsRecord rows) :
    (records.flatten.findIdxs (·.repetition = 0) start).length = records.length := by
  rw [findIdxs_records_eq start each, List.length_map, List.length_range]

section Records

variable {records : List (List Row)} (each : ∀ rows ∈ records, IsRecord rows) {index : Nat}

include each

/-- A column holds as many records as were written to it. -/
theorem recordCount_holding : (holding leaf records.flatten).recordCount = records.length := by
  unfold recordCount
  rw [holding, List.size_toArray]
  exact length_findIdxs_records 0 each

/-- **The index of records finds the first row of each record**, and of no other. -/
theorem recordStart?_holding_eq : (holding leaf records.flatten).recordStart? index =
    if index < records.length then some (records.take index).flatten.length else none := by
  have found := findIdxs_records 0 each index
  rw [Nat.zero_add] at found
  unfold recordStart?
  rw [holding, List.getElem?_toArray]
  exact found

theorem recordStart?_holding (inside : index < records.length) :
    (holding leaf records.flatten).recordStart? index =
      some (records.take index).flatten.length := by
  rw [recordStart?_holding_eq each, if_pos inside]

/-- The rows of a record end where those of the next one start, or with the column. -/
theorem recordRows?_holding (inside : index < records.length) :
    (holding leaf records.flatten).recordRows? index =
      some ((records.take index).flatten.length, (records.take (index + 1)).flatten.length) := by
  unfold recordRows?
  rw [recordStart?_holding each inside, recordStart?_holding_eq each, Option.map_some]
  refine congrArg (fun stop => some (_, stop)) ?_
  by_cases further : index + 1 < records.length
  · rw [if_pos further, Option.getD_some]
  · rw [if_neg further, Option.getD_none, size_holding,
      List.take_of_length_le (Nat.le_of_not_lt further)]

end Records

/-- The rows between the ends of the lists up to one of several lists are those of that list. -/
theorem drop_take_flatten {records : List (List Row)} {index : Nat}
    (found : records[index]? = some rows) :
    (records.flatten.take (records.take (index + 1)).flatten.length).drop
      (records.take index).flatten.length = rows := by
  have before : records.take (index + 1) = records.take index ++ [rows] := by
    rw [List.take_add_one, found, Option.toList_some]
  have whole : records.flatten =
      ((records.take index).flatten ++ rows) ++ (records.drop (index + 1)).flatten := by
    conv_lhs => rw [← List.take_append_drop (index + 1) records, before]
    simp
  rw [whole, before, List.flatten_append, List.flatten_singleton, List.take_left, List.drop_left]

end NestedColumns.Column
