/-
The ways to read a table.

Three paths lead to the records of a table. A single record is looked up in every column; a chunk is
looked up once and then read on, which relies on every reader standing at the next record when the
one before is complete; a stream reads on from the first record of the table. All of them give the
same records (`reads_agree`):

* `IsTableOf.assembleChunk_eq` — a chunk holds what erasure leaves of consecutive records of the log;
* `flatten_pieces` — chunks of any size cover a range, in order and without overlap, so that it does
  not matter for a range how its work is scheduled (`IsTableOf.assembleRange_eq`);
* `IsTableOf.toList_stream` — a stream yields all records and then ends.
-/

import NestedColumns.Proofs.Assembly.Iteration
import NestedColumns.Proofs.Table.RoundTrip

namespace NestedColumns

namespace Table

variable {schema : Schema} {log : List Record} {table : Table} {index count : Nat}
  {projection : Projection}

/-! ### Reading on -/

/-- What a projection leaves of a number of consecutive records of a log. -/
def piece (schema : Schema) (projection : Projection) (log : List Record) (start count : Nat) :
    List Record :=
  ((log.drop start).take count).map (projection.erase schema)

theorem piece_zero : piece schema projection log index 0 = [] := rfl

theorem piece_succ (inside : index < log.length) :
    piece schema projection log index (count + 1) =
      projection.erase schema log[index] :: piece schema projection log (index + 1) count := by
  unfold piece
  rw [List.drop_eq_getElem_cons inside, List.take_succ_cons, List.map_cons]

section Held

variable (holds : IsTableOf schema log table) (accepted : schema.IsAccepted)
  (own : projection.IsOf schema)

include holds accepted own

theorem IsTableOf.assembleCount_eq (within : index + count ≤ log.length) :
    table.assembleCount (Machine.ofLeaves (projection.selected schema)) count
        ((projection.selected schema).map (readerAt schema log index)) =
      .ok (piece schema projection log index count) := by
  induction count generalizing index with
  | zero => rfl
  | succ count ih =>
    have inside : index < log.length := by omega
    unfold assembleCount
    rw [holds.schema_eq,
      assemble_readerAt accepted own holds.admitted (List.getElem?_eq_getElem inside)]
    dsimp only
    rw [ih (by omega), piece_succ inside]
    rfl

/-- **A chunk** is looked up at its first record and read on from there. -/
theorem IsTableOf.assembleChunk_eq (within : index + count ≤ log.length) :
    table.assembleChunk (Machine.ofLeaves (projection.selected schema)) index count =
      .ok (piece schema projection log index count) := by
  unfold assembleChunk
  split
  · rename_i empty
    rw [empty, piece_zero]
  · have known : ∀ leaf ∈ projection.selected schema, leaf ∈ schema.leaves :=
      fun leaf member => List.mem_of_mem_filter member
    rw [holds.readers_eq accepted (by omega) known]
    exact holds.assembleCount_eq accepted own within

end Held

/-! ### Ranges -/

/-- Pieces of one size, of which the last may be shorter, lie one behind the other. -/
theorem flatten_pieces {α : Type} (list : List α) (start size total number : Nat) :
    ((List.range number).map fun part =>
        (list.drop (start + part * size)).take (min size (total - part * size))).flatten =
      (list.drop start).take (min (number * size) total) := by
  induction number with
  | zero => simp
  | succ number ih =>
    rw [List.range_succ, List.map_append, List.flatten_append, ih, List.map_singleton,
      List.flatten_singleton, Nat.succ_mul]
    rcases Nat.le_total (number * size) total with before | behind
    · have parts : min (number * size + size) total =
          number * size + min size (total - number * size) := by omega
      rw [Nat.min_eq_left before, parts, List.take_add, List.drop_drop]
    · have whole : min (number * size + size) total = total := by omega
      rw [Nat.min_eq_right behind, whole, Nat.sub_eq_zero_of_le behind, Nat.min_zero,
        List.take_zero, List.append_nil]

/-- So many pieces of a positive size are enough. -/
theorem le_pieces_mul {size total : Nat} (positive : 0 < size) :
    total ≤ (total + size - 1) / size * size := by
  have rest := Nat.mod_lt (total + size - 1) positive
  have split := Nat.div_add_mod (total + size - 1) size
  rw [Nat.mul_comm] at split
  omega

/-- No piece starts behind the end. -/
theorem mul_lt_of_lt_pieces {size total part : Nat} (among : part < (total + size - 1) / size) :
    part * size < total := by
  have upper : (part + 1) * size ≤ total + size - 1 :=
    le_trans (Nat.mul_le_mul_right size among) (Nat.div_mul_le_self _ _)
  have positive : 0 < size := by
    rcases Nat.eq_zero_or_pos size with rfl | positive
    · rw [Nat.div_zero] at among
      omega
    · exact positive
  rw [Nat.succ_mul] at upper
  omega

/-- **A range** holds the same records however its work is scheduled. -/
theorem IsTableOf.assembleRange_eq (holds : IsTableOf schema log table)
    (accepted : schema.IsAccepted) (own : projection.IsOf schema) {start stop : Nat}
    (ordered : start ≤ stop) (within : stop ≤ table.size) :
    table.assembleRange (Machine.ofLeaves (projection.selected schema)) start stop =
      .ok (piece schema projection log start (stop - start)) := by
  have valid : ¬ (stop < start ∨ table.size < stop) := by omega
  rw [holds.size] at within
  unfold assembleRange
  rw [if_neg valid]
  dsimp only [bind, Except.bind, pure, Except.pure]
  generalize sizes : max table.options.assemblyChunkSize 1 = size
  have positive : 0 < size := by omega
  split
  · exact holds.assembleChunk_eq accepted own (by omega)
  · have each : ∀ chunk ∈ chunks size start (stop - start),
        table.assembleChunk (Machine.ofLeaves (projection.selected schema)) chunk.1 chunk.2 =
          .ok (piece schema projection log chunk.1 chunk.2) := by
      intro chunk member
      obtain ⟨part, among, rfl⟩ := List.mem_map.mp member
      have before := mul_lt_of_lt_pieces (List.mem_range.mp among)
      exact holds.assembleChunk_eq accepted own (by dsimp only; omega)
    have pieces := flatten_pieces log start size (stop - start) ((stop - start + size - 1) / size)
    rw [Nat.min_eq_right (le_pieces_mul positive)] at pieces
    have mapped := congrArg (List.map (projection.erase schema)) pieces
    rw [List.map_flatten, List.map_map] at mapped
    rw [mapM_eq_map each]
    dsimp only
    rw [chunks, List.map_map]
    exact congrArg Except.ok mapped

/-! ### Streams -/

section Held

variable (holds : IsTableOf schema log table) (accepted : schema.IsAccepted)
include holds accepted

/-- A stream starts at the first record, also of a table without records. -/
theorem IsTableOf.records_eq :
    table.records (Machine.ofLeaves (projection.selected schema)) =
      .ok ⟨schema, Machine.ofLeaves (projection.selected schema),
        (projection.selected schema).map (readerAt schema log 0), log.length⟩ := by
  have known : ∀ leaf ∈ projection.selected schema, leaf ∈ schema.leaves :=
    fun leaf member => List.mem_of_mem_filter member
  unfold records isEmpty
  split
  · have columns : (Machine.ofLeaves (projection.selected schema)).fields.mapM (fun field => do
        let column ← table.column field
        return Reader.mk column 0) =
          .ok ((projection.selected schema).map (readerAt schema log 0)) := by
      rw [Machine.fields_ofLeaves, mapM_eq_ok, List.forall₂_map_left_iff,
        List.forall₂_map_right_iff, List.forall₂_same]
      intro leaf member
      rw [bind_eq_ok]
      exact ⟨_, holds.column_eq accepted (known leaf member), rfl⟩
    rw [columns, holds.schema_eq, holds.size]
    rfl
  · rename_i filled
    have inside : 0 < log.length := by
      rw [← holds.size]
      exact Nat.pos_of_ne_zero fun empty => filled (beq_iff_eq.mpr empty)
    rw [holds.readers_eq accepted inside known, holds.schema_eq, holds.size]
    rfl

/-- **A stream** yields the records from the one it stands at to the last, and then ends. -/
theorem IsTableOf.toList_stream (own : projection.IsOf schema) (upTo : index + count = log.length) :
    RecordStream.toList ⟨schema, Machine.ofLeaves (projection.selected schema),
        (projection.selected schema).map (readerAt schema log index), count⟩ =
      (piece schema projection log index count).map .ok := by
  induction count generalizing index with
  | zero => exact RecordStream.toList_of_next?_eq_none rfl
  | succ count ih =>
    have inside : index < log.length := by omega
    rw [RecordStream.toList_of_assembled rfl
      (assemble_readerAt accepted own holds.admitted (List.getElem?_eq_getElem inside)), ih (by omega),
      piece_succ inside, List.map_cons]

end Held

/-! ### All ways to read -/

/-- The ways to read a table give the same records. -/
structure ReadsAgree (table : Table) (machine : Machine) : Prop where
  /-- A range that runs backwards or past the end is refused. -/
  refuses : ∀ start stop, stop < start ∨ table.size < stop →
    table.assembleRange machine start stop = .error (.invalidArgument .rangeOutOfBounds)
  /-- Any other range holds the records that are found at its indices, in order. -/
  range : ∀ start stop, start ≤ stop → stop ≤ table.size →
    ∃ records, table.assembleRange machine start stop = .ok records ∧
      List.Forall₂ (fun index record => table.assemble machine index = .ok record)
        (List.range' start (stop - start)) records
  /-- A stream yields the range of all records, and then ends. -/
  stream : ∃ stream records, table.records machine = .ok stream ∧
    table.assembleRange machine 0 table.size = .ok records ∧ stream.toList = records.map .ok

/-- The records of a range are those that are found one by one. -/
theorem IsTableOf.forall₂_piece (holds : IsTableOf schema log table) (accepted : schema.IsAccepted)
    (own : projection.IsOf schema) (within : index + count ≤ log.length) :
    List.Forall₂ (fun index record =>
        table.assemble (Machine.ofLeaves (projection.selected schema)) index = .ok record)
      (List.range' index count) (piece schema projection log index count) := by
  induction count generalizing index with
  | zero => exact .nil
  | succ count ih =>
    have inside : index < log.length := by omega
    rw [List.range'_succ, piece_succ inside]
    exact .cons (holds.assemble_eq accepted own (List.getElem?_eq_getElem inside)) (ih (by omega))

theorem IsTableOf.readsAgree (holds : IsTableOf schema log table) (accepted : schema.IsAccepted)
    (own : projection.IsOf schema) :
    table.ReadsAgree (Machine.ofLeaves (projection.selected schema)) where
  refuses := by
    intro start stop invalid
    unfold assembleRange
    rw [if_pos invalid]
    rfl
  range := by
    intro start stop ordered within
    refine ⟨_, holds.assembleRange_eq accepted own ordered within,
      holds.forall₂_piece accepted own ?_⟩
    rw [← holds.size]
    omega
  stream := by
    refine ⟨_, _, holds.records_eq accepted,
      holds.assembleRange_eq accepted own (Nat.zero_le _) le_rfl, ?_⟩
    rw [Nat.sub_zero, holds.size]
    exact holds.toList_stream accepted own (Nat.zero_add _)

/-- **All ways to read a table agree**, whatever calls filled it, for every selection of leaves and
however the work is scheduled. -/
theorem reads_agree (accepted : schema.IsAccepted) (own : projection.IsOf schema)
    (options : TableOptions) :
    ∃ start, Table.new schema options = .ok start ∧
      ∀ calls, ∃ machine, (start.afterCalls calls).machine projection = .ok machine ∧
        (start.afterCalls calls).ReadsAgree machine := by
  refine ⟨_, new_eq_ok schema options, fun calls => ?_⟩
  have holds := isTableOf_afterCalls (new_eq_ok schema options) calls
  refine ⟨Machine.ofLeaves (projection.selected schema), ?_, holds.readsAgree accepted own⟩
  unfold machine
  rw [holds.schema_eq]
  exact Machine.ofProjection_eq accepted own

/-- Three documents in chunks of one. -/
theorem reads_agree_inChunks :
    Sample.documentType.IsAccepted ∧
      (Projection.all Sample.documentType).IsOf Sample.documentType ∧
      ∃ start, Table.new Sample.documentType { assemblyChunkSize := 0 } = .ok start ∧
        ∃ machine, (start.afterCalls [.insert Sample.largeDocument,
            .insertBatch [Sample.smallDocument, Sample.largeDocument]]).machine
              (Projection.all Sample.documentType) = .ok machine ∧
          (start.afterCalls [.insert Sample.largeDocument,
            .insertBatch [Sample.smallDocument, Sample.largeDocument]]).ReadsAgree machine := by
  refine ⟨Sample.documentType_isAccepted, Projection.IsOf.all, ?_⟩
  obtain ⟨start, made, agree⟩ :=
    reads_agree Sample.documentType_isAccepted Projection.IsOf.all { assemblyChunkSize := 0 }
  exact ⟨start, made, agree _⟩

end Table

end NestedColumns
