/-
The calls of a stream.

A stream is called again and again. Each call assembles the next record from the readers as the call
before left them, until the records are counted out or one cannot be assembled; from then on the calls
give nothing (`RecordStream.Iterates`). The items that a stream lists are those that its calls give, one
by one (`RecordStream.item?_afterCalls`), and behind each call the rest of them is still to come
(`RecordStream.toList_afterCalls`).

Before each call a stream announces as many items as it has left to count. No more than these come. But
as many come only if no fault precedes the last of them, which a stream cannot know in advance
(`RecordStream.Announces`): all it can promise is that something comes while records are left to count.
-/

import NestedColumns.Assembly.Stream
import NestedColumns.Proofs.Assembly.Steps

namespace NestedColumns

namespace RecordStream

/-! ### What the calls do -/

/-- What a call gives, if anything. -/
def item? (stream : RecordStream) : Option (Except Fault Record) :=
  stream.next?.map (·.1)

/-- The stream behind a call; one that has ended stays as it is. -/
def afterCall (stream : RecordStream) : RecordStream :=
  (stream.next?.map (·.2)).getD stream

def afterCalls (stream : RecordStream) (calls : Nat) : RecordStream :=
  afterCall^[calls] stream

/-- A call gives an outcome: what assembling the next record comes to, from the readers as the calls
before left them. -/
structure Gives (stream : RecordStream) (call : Nat) (outcome : Except Fault Record) : Prop where
  item_eq : (stream.afterCalls call).item? = some outcome
  assembled : stream.schema.assemble stream.machine (stream.afterCalls call).readers =
    (outcome, (stream.afterCalls (call + 1)).readers)

/-- **The calls of a stream** give a number of whole records first. Then nothing comes any more: at
once if all records have been counted out, or else behind one fault. -/
structure Iterates (stream : RecordStream) (whole : Nat) : Prop where
  records : ∀ call < whole, ∃ record, stream.Gives call (.ok record)
  ends : (whole = stream.remaining ∧ ∀ call ≥ whole, (stream.afterCalls call).item? = none) ∨
    (whole < stream.remaining ∧ (∃ fault, stream.Gives whole (.error fault)) ∧
      ∀ call > whole, (stream.afterCalls call).item? = none)

/-- **What a stream announces** against what comes. -/
structure Announces (stream : RecordStream) : Prop where
  upper : stream.toList.length ≤ stream.sizeHint.2
  /-- Something is announced exactly if something comes. -/
  positive : 0 < stream.sizeHint.1 ↔ stream.toList ≠ []
  /-- As many items come as announced exactly if all of these but the last are records. -/
  lower : stream.sizeHint.1 ≤ stream.toList.length ↔
    ∀ position, position + 1 < stream.sizeHint.1 →
      ∃ record, stream.toList[position]? = some (.ok record)

variable {stream later : RecordStream} {item : Except Fault Record} {readers : List Reader}
  {record : Record} {fault : Fault} {remaining : Nat}

/-! ### One call -/

theorem next?_of_ended (out : stream.remaining = 0) : stream.next? = none := by
  unfold next?
  rw [out]

theorem next?_of_assembled (left : stream.remaining = remaining + 1)
    (made : stream.schema.assemble stream.machine stream.readers = (.ok record, readers)) :
    stream.next? = some (.ok record, { stream with readers, remaining }) := by
  unfold next?
  rw [left]
  dsimp only
  rw [made]

/-- Behind a fault nothing is left. -/
theorem next?_of_failed (left : 0 < stream.remaining)
    (failed : stream.schema.assemble stream.machine stream.readers = (.error fault, readers)) :
    stream.next? = some (.error fault, { stream with readers, remaining := 0 }) := by
  obtain ⟨remaining, count⟩ := Nat.exists_eq_succ_of_ne_zero (Nat.ne_of_gt left)
  unfold next?
  rw [count]
  dsimp only
  rw [failed]

/-- **Call by call.** What holds of a stream that has ended or comes to a fault, and of a stream that
gives a record if it holds of the stream behind it, holds of every stream. -/
@[elab_as_elim]
theorem inductionOn {motive : RecordStream → Prop} (stream : RecordStream)
    (ended : ∀ {stream : RecordStream}, stream.remaining = 0 → motive stream)
    (failed : ∀ {stream : RecordStream} {fault : Fault} {readers : List Reader},
      0 < stream.remaining →
      stream.schema.assemble stream.machine stream.readers = (.error fault, readers) →
      motive stream)
    (assembled : ∀ {stream : RecordStream} {record : Record} {readers : List Reader}
      {remaining : Nat}, stream.remaining = remaining + 1 →
      stream.schema.assemble stream.machine stream.readers = (.ok record, readers) →
      motive { stream with readers, remaining } → motive stream) : motive stream := by
  induction left : stream.remaining generalizing stream with
  | zero => exact ended left
  | succ remaining ih =>
    rcases made : stream.schema.assemble stream.machine stream.readers with ⟨_ | _, readers⟩
    · exact failed (by omega) made
    · exact assembled left made (ih { stream with readers, remaining } rfl)

/-! ### The items of a stream -/

theorem toList_of_next?_eq_none (ended : stream.next? = none) : stream.toList = [] := by
  unfold toList items
  split
  · rfl
  · rename_i found
    rw [ended] at found
    cases found

theorem toList_of_next?_eq_some (found : stream.next? = some (item, later)) :
    stream.toList = item :: later.toList := by
  unfold toList
  conv_lhs => unfold items
  split
  · rename_i ended
    rw [found] at ended
    cases ended
  · rename_i first
    rw [found] at first
    cases first
    rfl

theorem toList_of_ended (out : stream.remaining = 0) : stream.toList = [] :=
  toList_of_next?_eq_none (next?_of_ended out)

/-- A record that is assembled is the next item. -/
theorem toList_of_assembled (left : stream.remaining = remaining + 1)
    (made : stream.schema.assemble stream.machine stream.readers = (.ok record, readers)) :
    stream.toList = .ok record :: toList { stream with readers, remaining } :=
  toList_of_next?_eq_some (next?_of_assembled left made)

/-- A fault is the last item. -/
theorem toList_of_failed (left : 0 < stream.remaining)
    (failed : (stream.schema.assemble stream.machine stream.readers).1 = .error fault) :
    stream.toList = [.error fault] := by
  rw [toList_of_next?_eq_some (next?_of_failed left (Prod.ext failed rfl)), toList_of_ended rfl]

theorem head?_toList (stream : RecordStream) : stream.toList.head? = stream.item? := by
  unfold item?
  cases found : stream.next? with
  | none =>
    rw [toList_of_next?_eq_none found]
    rfl
  | some result =>
    rw [toList_of_next?_eq_some found]
    rfl

theorem toList_afterCall (stream : RecordStream) :
    stream.afterCall.toList = stream.toList.tail := by
  unfold afterCall
  cases found : stream.next? with
  | none =>
    show stream.toList = stream.toList.tail
    rw [toList_of_next?_eq_none found]
    rfl
  | some result =>
    rw [toList_of_next?_eq_some found]
    rfl

/-! ### Call after call -/

theorem afterCall_eq (found : stream.next? = some (item, later)) : stream.afterCall = later := by
  rw [afterCall, found]
  rfl

theorem afterCalls_succ (stream : RecordStream) (calls : Nat) :
    stream.afterCalls (calls + 1) = stream.afterCall.afterCalls calls :=
  Function.iterate_succ_apply afterCall calls stream

/-- **Behind some calls** the rest of the items is still to come. -/
theorem toList_afterCalls (stream : RecordStream) (calls : Nat) :
    (stream.afterCalls calls).toList = stream.toList.drop calls := by
  induction calls generalizing stream with
  | zero => rfl
  | succ calls ih => rw [afterCalls_succ, ih, toList_afterCall, List.drop_tail]

/-- **The items are what the calls give**, one by one. -/
theorem item?_afterCalls (stream : RecordStream) (calls : Nat) :
    (stream.afterCalls calls).item? = stream.toList[calls]? := by
  rw [← head?_toList, toList_afterCalls, List.head?_drop]

/-- A first call gives what is assembled first. -/
theorem gives_zero {outcome : Except Fault Record} (found : stream.next? = some (outcome, later))
    (made : stream.schema.assemble stream.machine stream.readers = (outcome, later.readers)) :
    stream.Gives 0 outcome where
  item_eq := congrArg (Option.map Prod.fst) found
  assembled := by
    rw [afterCalls_succ, afterCall_eq found]
    exact made

/-- Every later call is one of the stream behind the first. -/
theorem Gives.succ {call : Nat} {outcome : Except Fault Record}
    (found : stream.next? = some (item, { stream with readers, remaining }))
    (gives : Gives { stream with readers, remaining } call outcome) :
    stream.Gives (call + 1) outcome where
  item_eq := by
    rw [afterCalls_succ, afterCall_eq found]
    exact gives.item_eq
  assembled := by
    rw [afterCalls_succ, afterCalls_succ, afterCall_eq found]
    exact gives.assembled

/-- Behind the last item nothing comes any more. -/
theorem item?_afterCalls_eq_none {calls : Nat} (behind : stream.toList.length ≤ calls) :
    (stream.afterCalls calls).item? = none := by
  rw [item?_afterCalls, List.getElem?_eq_none behind]

/-! ### The contract of a stream -/

/-- **The calls of a stream** give whole records, then at most one fault, then nothing for good. -/
theorem exists_iterates (stream : RecordStream) : ∃ whole, stream.Iterates whole := by
  induction stream using inductionOn with
  | @ended stream out =>
    refine ⟨0, fun _ before => absurd before (Nat.not_lt_zero _), .inl ⟨out.symm, fun call _ => ?_⟩⟩
    rw [item?_afterCalls, toList_of_ended out]
    rfl
  | @failed stream fault readers left failed =>
    have found := next?_of_failed left failed
    refine ⟨0, fun _ before => absurd before (Nat.not_lt_zero _),
      .inr ⟨left, ⟨fault, gives_zero found failed⟩, fun call behind => item?_afterCalls_eq_none ?_⟩⟩
    rw [toList_of_failed left (congrArg Prod.fst failed)]
    exact behind
  | @assembled stream record readers remaining left made ih =>
    have found := next?_of_assembled left made
    obtain ⟨whole, records, ends⟩ := ih
    have nothing : ∀ {calls}, (∀ call ≥ calls,
          (afterCalls { stream with readers, remaining } call).item? = none) →
        ∀ call ≥ calls + 1, (stream.afterCalls call).item? = none := by
      intro calls ended call behind
      obtain ⟨before, rfl⟩ := Nat.exists_eq_add_of_le' (Nat.le_of_add_left_le behind)
      rw [afterCalls_succ, afterCall_eq found]
      exact ended before (Nat.le_of_succ_le_succ behind)
    refine ⟨whole + 1, fun call before => ?_, ?_⟩
    · cases call with
      | zero => exact ⟨record, gives_zero found made⟩
      | succ call =>
        obtain ⟨next, gives⟩ := records call (Nat.lt_of_succ_lt_succ before)
        exact ⟨next, gives.succ found⟩
    · rw [left]
      rcases ends with ⟨all, ended⟩ | ⟨fewer, ⟨fault, gives⟩, ended⟩
      · exact .inl ⟨congrArg (· + 1) all, nothing ended⟩
      · exact .inr ⟨Nat.succ_lt_succ fewer, ⟨fault, gives.succ found⟩, nothing ended⟩

theorem length_toList_le (stream : RecordStream) : stream.toList.length ≤ stream.remaining := by
  induction stream using inductionOn with
  | ended out =>
    rw [toList_of_ended out]
    exact Nat.zero_le _
  | failed left failed =>
    rw [toList_of_failed left (congrArg Prod.fst failed)]
    exact left
  | assembled left made ih =>
    rw [toList_of_assembled left made, left]
    exact Nat.succ_le_succ ih

theorem remaining_pos_iff (stream : RecordStream) : 0 < stream.remaining ↔ stream.toList ≠ [] := by
  induction stream using inductionOn with
  | ended out =>
    rw [toList_of_ended out, out]
    exact iff_of_false (Nat.lt_irrefl 0) (absurd rfl)
  | failed left failed =>
    rw [toList_of_failed left (congrArg Prod.fst failed)]
    exact iff_of_true left (List.cons_ne_nil _ _)
  | assembled left made _ =>
    rw [toList_of_assembled left made, left]
    exact iff_of_true (Nat.succ_pos _) (List.cons_ne_nil _ _)

/-- **As many items come as are left to count** exactly if no fault precedes the last of them. -/
theorem remaining_le_length_iff (stream : RecordStream) :
    stream.remaining ≤ stream.toList.length ↔ ∀ position, position + 1 < stream.remaining →
      ∃ record, stream.toList[position]? = some (.ok record) := by
  induction stream using inductionOn with
  | ended out =>
    rw [out]
    exact iff_of_true (Nat.zero_le _) fun _ before => absurd before (Nat.not_lt_zero _)
  | failed left failed =>
    rw [toList_of_failed left (congrArg Prod.fst failed), List.length_singleton]
    constructor
    · intro one position before
      omega
    · intro records
      by_contra more
      obtain ⟨record, first⟩ := records 0 (by omega)
      cases first
  | assembled left made ih =>
    rw [toList_of_assembled left made, left, List.length_cons, Nat.add_le_add_iff_right, ih]
    constructor
    · rintro records (_ | position) before
      · exact ⟨_, rfl⟩
      · exact records position (Nat.lt_of_succ_lt_succ before)
    · intro records position before
      exact records (position + 1) (Nat.succ_lt_succ before)

theorem announces (stream : RecordStream) : stream.Announces :=
  ⟨stream.length_toList_le, stream.remaining_pos_iff, stream.remaining_le_length_iff⟩

/-- **A stream keeps its contract**, whatever its columns hold and wherever its readers stand: its calls
give whole records, then at most one fault, then nothing for good. Before every call, what it announces
bounds the items to come from above, and from below unless a fault cuts them short. -/
theorem keepsContract (stream : RecordStream) :
    (∃ whole, stream.Iterates whole) ∧
      ∀ calls, (stream.afterCalls calls).item? = stream.toList[calls]? ∧
        (stream.afterCalls calls).toList = stream.toList.drop calls ∧
        (stream.afterCalls calls).Announces :=
  ⟨stream.exists_iterates, fun calls =>
    ⟨stream.item?_afterCalls calls, stream.toList_afterCalls calls, announces _⟩⟩

end RecordStream

/-- A record that cannot be completed: the codes go on in a second name, the links do not. -/
def Sample.unfinishedNames : List Reader :=
  [ reader code [textRow "a" 0 2, textRow "b" 1 2, textRow "c" 0 2],
    reader country [nullRow 0 2, nullRow 1 2, nullRow 0 2],
    reader url [nullRow 0 1, nullRow 0 1] ]

theorem Sample.isFilled_unfinishedNames :
    ∀ reader ∈ unfinishedNames, reader.column.IsFilled documentType reader.field := by
  unfold unfinishedNames
  rw [List.forall_mem_cons, List.forall_mem_cons, List.forall_mem_singleton]
  exact ⟨isFilled_reader rfl _, isFilled_reader rfl _, isFilled_reader rfl _⟩

theorem Sample.exists_fault_unfinishedNames :
    ∃ fault, (documentType.assemble nameMachine unfinishedNames).1 = .error fault := by
  have fails : (documentType.assemble nameMachine unfinishedNames).1.toBool = false := by
    decide +kernel
  cases made : (documentType.assemble nameMachine unfinishedNames).1 with
  | error fault => exact ⟨fault, rfl⟩
  | ok record =>
    rw [made] at fails
    cases fails

/-- More items may be announced than come: two records are left to count, and the first call ends the
stream with a fault. -/
theorem RecordStream.not_between_sizeHint :
    ¬ ∀ (schema : Schema) (projection : Projection) (machine : Machine) (readers : List Reader)
        (count calls : Nat) (stream : RecordStream),
        schema.IsAccepted → projection.IsOf schema →
        Machine.ofProjection schema projection = .ok machine →
        (∀ reader ∈ readers, reader.column.IsFilled schema reader.field) →
        readers.map (·.field) = machine.fields →
        stream = afterCalls ⟨schema, machine, readers, count⟩ calls →
        stream.sizeHint.1 ≤ stream.toList.length ∧ stream.toList.length ≤ stream.sizeHint.2 := by
  intro always
  obtain ⟨fault, failed⟩ := Sample.exists_fault_unfinishedNames
  have announced := always Sample.documentType Sample.namesOnly Sample.nameMachine
    Sample.unfinishedNames 2 0 _ Sample.documentType_isAccepted Sample.namesOnly_isOf
    Sample.ofProjection_namesOnly Sample.isFilled_unfinishedNames rfl rfl
  have one : (afterCalls ⟨Sample.documentType, Sample.nameMachine, Sample.unfinishedNames, 2⟩ 0).toList =
      [.error fault] := toList_of_failed Nat.two_pos failed
  rw [one] at announced
  exact absurd announced.1 (Nat.not_succ_le_self 1)

end NestedColumns
