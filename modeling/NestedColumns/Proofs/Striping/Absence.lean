/-
Absent fields.

The absence of a field is written as one row without a value in the column of every leaf at or below
it, and nowhere else (`Schema.spreads_writeNull`). These columns follow one another: the leaves at or
below a node are those with a column from its own on, as many as its field has leaves
(`Schema.IsAccepted.isWithin_iff_column`). So a row that is spread over a field goes to each of them
once (`Field.spread_eq_range'`), and a staged record takes all these rows (`StagedRecord.deliver_row`).
-/

import NestedColumns.Proofs.Machine.Meaning
import NestedColumns.Proofs.Schema.Ancestors
import NestedColumns.Proofs.Striping.Visits

namespace NestedColumns

/-- The rows of a field go to consecutive columns. -/
theorem Field.spread_eq_range' (row : Row) (column : Nat) (field : Field) :
    field.spread row column = (List.range' column field.leafCount).map (·, row) := by
  rw [spread_eq row [] column, ← map_column_leaves [] column, List.map_map]
  rfl

/-- **One row for each of several columns** is appended to these columns and to no other. -/
theorem StagedRecord.deliver_row {columns : List Nat} (distinct : columns.Nodup) (row : Row)
    {staged : StagedRecord} (within : ∀ column ∈ columns, column < staged.columnCount) :
    ∃ later, Written.deliver insert (columns.map (·, row)) staged = (later, .ok ()) ∧
      later.columnCount = staged.columnCount ∧
      ∀ position < staged.columnCount, later.rows position =
        staged.rows position ++ if position ∈ columns then [row] else [] := by
  refine ⟨_, deliver_eq_ok (List.forall_mem_map.mpr within), List.length_mapIdx,
    fun position inside => ?_⟩
  have inside : position < staged.columns.length := inside
  have once : ((columns.map (·, row)).filter (·.1 = position)).map (·.2) =
      if position ∈ columns then [row] else [] := by
    rw [List.filter_map, List.map_map]
    show (columns.filter fun column => decide (column = position)).map (fun _ => row) = _
    rw [List.filter_eq, distinct.count]
    split <;> rfl
  unfold rows
  rw [List.getElem?_mapIdx, List.getElem?_eq_getElem inside, once]
  rfl

namespace Schema

/-- **A row spread over a field** is appended to the column of every leaf at or below the field and to
no other column, and these columns follow one another. -/
structure Spreads (schema : Schema) (owner : FieldId) (row : Row) (staged later : StagedRecord) :
    Prop where
  columnCount_eq : later.columnCount = staged.columnCount
  within : ∀ ordinal leaf, schema.leafIds[ordinal]? = some leaf → schema.IsWithin leaf owner →
    later.rows ordinal = staged.rows ordinal ++ [row]
  elsewhere : ∀ ordinal leaf, schema.leafIds[ordinal]? = some leaf → ¬ schema.IsWithin leaf owner →
    later.rows ordinal = staged.rows ordinal
  consecutive : ∃ first past, first < past ∧ past ≤ schema.columnCount ∧
    ∀ ordinal leaf, schema.leafIds[ordinal]? = some leaf →
      (schema.IsWithin leaf owner ↔ first ≤ ordinal ∧ ordinal < past)

variable {schema : Schema} {node leaf : Node} {id : FieldId}

theorem column_lt_columnCount (isLeaf : leaf ∈ schema.leaves) : leaf.column < schema.columnCount := by
  rw [← List.mem_range, ← map_column_leaves]
  exact List.mem_map_of_mem isLeaf

/-- The leaves of a node are those from its column on, as many as its field has. -/
theorem mem_leaves_iff_column (member : node ∈ schema.nodes) (isLeaf : leaf ∈ schema.leaves) :
    leaf ∈ node.leaves ↔ leaf.column ∈ List.range' node.column node.field.leafCount := by
  rw [← Field.map_column_leaves node.path]
  constructor
  · exact List.mem_map_of_mem
  · intro inside
    obtain ⟨other, below, same⟩ := List.mem_map.mp inside
    exact eq_of_column_eq isLeaf (leaves_subset member below) same ▸ below

/-- The columns of a field are columns of the schema. -/
theorem lt_columnCount_of_mem_range' (member : node ∈ schema.nodes) :
    ∀ column ∈ List.range' node.column node.field.leafCount, column < schema.columnCount := by
  intro column inside
  rw [← Field.map_column_leaves node.path] at inside
  obtain ⟨leaf, below, rfl⟩ := List.mem_map.mp inside
  exact column_lt_columnCount (leaves_subset member below)

namespace IsAccepted

variable (accepted : schema.IsAccepted)

include accepted

theorem leafCount_pos (member : node ∈ schema.nodes) : 0 < node.field.leafCount := by
  have columns := congrArg List.length (Field.map_column_leaves node.path node.column node.field)
  rw [List.length_map, List.length_range'] at columns
  rw [← columns]
  exact List.length_pos_of_ne_nil (Field.leaves_ne_nil_of_mem_walk accepted.wellFormed member)

/-- A leaf is at or below a node exactly if it is one of the leaves of its subtree. -/
theorem isWithin_iff_mem_leaves (member : node ∈ schema.nodes) (isLeaf : leaf ∈ schema.leaves) :
    schema.IsWithin leaf.id node.id ↔ leaf ∈ node.leaves := by
  have among : leaf ∈ schema.nodes := List.mem_of_mem_filter isLeaf
  have field := path_ne_nil_of_mem_leaves isLeaf
  unfold IsWithin
  rw [accepted.isAncestor?_eq_true_iff member among field, eq_comm,
    ← accepted.isPrefix_path_iff member among field,
    accepted.mem_leaves_iff_isPrefix member isLeaf]

/-- **The leaves at or below a node** are those with the columns of its field. -/
theorem isWithin_iff_column {ordinal : Nat} (member : node ∈ schema.nodes)
    (listed : schema.leafIds[ordinal]? = some id) :
    schema.IsWithin id node.id ↔ ordinal ∈ List.range' node.column node.field.leafCount := by
  obtain ⟨leaf, found, rfl⟩ := leafIds_getElem?_eq_some_iff.mp listed
  have isLeaf := List.mem_of_getElem? found
  rw [accepted.isWithin_iff_mem_leaves member isLeaf, mem_leaves_iff_column member isLeaf,
    column_of_leaves_getElem? found]

/-- The columns of a field end within those of the schema. -/
theorem column_add_leafCount_le (member : node ∈ schema.nodes) :
    node.column + node.field.leafCount ≤ schema.columnCount := by
  have positive := accepted.leafCount_pos member
  have last := lt_columnCount_of_mem_range' member (node.column + node.field.leafCount - 1)
    (List.mem_range'_1.mpr ⟨by omega, by omega⟩)
  omega

theorem writeNull_id (member : node ∈ schema.nodes) (repetition definition : Level) :
    schema.writeNull node.id repetition definition =
      { rows := (List.range' node.column node.field.leafCount).map
          (·, ⟨none, repetition, definition⟩) } := by
  unfold writeNull writer
  rw [accepted.node?_id member]
  exact congrArg (Written.mk · none) (Field.spread_eq_range' _ node.column node.field)

end IsAccepted

/-- **The absence of a field is written to all columns at or below it**, once to each, and to no other
column: whatever a staged record holds, it takes all the rows. -/
theorem spreads_writeNull (accepted : schema.IsAccepted) (known : schema.contains id = true)
    (repetition definition : Level) {staged : StagedRecord}
    (width : staged.columnCount = schema.columnCount) :
    ∃ later, (schema.writeNull id repetition definition).into StagedRecord.insert staged =
        (later, .ok ()) ∧
      schema.Spreads id ⟨none, repetition, definition⟩ staged later := by
  obtain ⟨node, member, rfl⟩ := exists_mem_nodes_of_contains known
  have inside := lt_columnCount_of_mem_range' member
  obtain ⟨later, delivered, count, rows⟩ := StagedRecord.deliver_row (List.nodup_range' 1)
    ⟨none, repetition, definition⟩ (width ▸ inside)
  have rowsAt : ∀ {ordinal leaf}, schema.leafIds[ordinal]? = some leaf → later.rows ordinal =
      staged.rows ordinal ++ if ordinal ∈ List.range' node.column node.field.leafCount
        then [⟨none, repetition, definition⟩] else [] :=
    fun listed => rows _ (width ▸ (List.getElem?_eq_some_iff.mp listed).1)
  refine ⟨later, ?_, count, ?_, ?_, node.column, node.column + node.field.leafCount, ?_,
    accepted.column_add_leafCount_le member, ?_⟩
  · unfold Written.into
    rw [accepted.writeNull_id member, delivered]
  · intro ordinal leaf listed within
    rw [rowsAt listed, if_pos ((accepted.isWithin_iff_column member listed).mp within)]
  · intro ordinal leaf listed elsewhere
    rw [rowsAt listed,
      if_neg (mt (accepted.isWithin_iff_column member listed).mpr elsewhere), List.append_nil]
  · exact Nat.lt_add_of_pos_right (accepted.leafCount_pos member)
  · intro ordinal leaf listed
    rw [accepted.isWithin_iff_column member listed, List.mem_range'_1]

/-- One more name without a language, behind the only name of a document. -/
theorem spreads_writeNull_language :
    Sample.documentType.IsAccepted ∧ Sample.documentType.contains 6 = true ∧
      ∃ staged, Sample.documentType.stage Sample.smallDocument = .ok staged ∧
        staged.columnCount = Sample.documentType.columnCount ∧
        ∃ later, (Sample.documentType.writeNull 6 1 1).into StagedRecord.insert staged =
            (later, .ok ()) ∧
          Sample.documentType.Spreads 6 ⟨none, 1, 1⟩ staged later := by
  obtain ⟨staged, made, width⟩ : ∃ staged,
      Sample.documentType.stage Sample.smallDocument = .ok staged ∧
        staged.columnCount = Sample.documentType.columnCount := ⟨_, rfl, rfl⟩
  exact ⟨Sample.documentType_isAccepted, rfl, staged, made, width,
    spreads_writeNull Sample.documentType_isAccepted rfl 1 1 width⟩

/-- A language has a code and a country. -/
example : (Sample.documentType.writeNull 6 1 1).rows =
    [(3, ⟨none, 1, 1⟩), (4, ⟨none, 1, 1⟩)] := rfl

end Schema

end NestedColumns
