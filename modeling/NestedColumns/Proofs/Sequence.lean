/-
Computations that may fail, one after the other.

A sequence of computations gives a result exactly if each of them does: `bind_eq_ok` for two,
`mapM_eq_ok` and `forM_eq_ok` for a list. If a list of them fails, one of them fails in the same way
(`mapM_eq_error`, `forM_eq_error`).
-/

import Mathlib.Data.List.Forall2

namespace NestedColumns

variable {ε α β : Type}

theorem bind_eq_ok {first : Except ε α} {next : α → Except ε β} {result : β} :
    first >>= next = .ok result ↔ ∃ value, first = .ok value ∧ next value = .ok result := by
  cases first with
  | error fault => simp [bind, Except.bind]
  | ok value => simp [bind, Except.bind]

theorem map_eq_ok {first : Except ε α} {view : α → β} {result : β} :
    first.map view = .ok result ↔ ∃ value, first = .ok value ∧ view value = result := by
  cases first with
  | error fault => simp [Except.map]
  | ok value => simp [Except.map]

theorem mapM_eq_ok {compute : α → Except ε β} {inputs : List α} {results : List β} :
    inputs.mapM compute = .ok results ↔
      List.Forall₂ (fun input result => compute input = .ok result) inputs results := by
  induction inputs generalizing results with
  | nil =>
    rw [List.mapM_nil, List.forall₂_nil_left_iff]
    constructor
    · rintro ⟨⟩
      rfl
    · rintro rfl
      rfl
  | cons input inputs ih =>
    rw [List.mapM_cons, bind_eq_ok]
    constructor
    · rintro ⟨value, first, rest⟩
      obtain ⟨values, others, same⟩ := bind_eq_ok.mp rest
      cases same
      exact .cons first (ih.mp others)
    · intro each
      cases each with
      | cons first rest =>
        exact ⟨_, first, bind_eq_ok.mpr ⟨_, ih.mpr rest, rfl⟩⟩

theorem exists_of_mem_of_forall₂ {related : α → β → Prop} {inputs : List α} {results : List β}
    {input : α} (each : List.Forall₂ related inputs results) (member : input ∈ inputs) :
    ∃ result ∈ results, related input result := by
  induction each with
  | nil => cases member
  | cons here _ ih =>
    rcases List.mem_cons.mp member with rfl | later
    · exact ⟨_, List.mem_cons_self, here⟩
    · obtain ⟨result, among, computed⟩ := ih later
      exact ⟨result, List.mem_cons_of_mem _ among, computed⟩

theorem exists_getElem?_of_forall₂ {related : α → β → Prop} {inputs : List α} {results : List β}
    (each : List.Forall₂ related inputs results) : ∀ {position : Nat} {input : α},
      inputs[position]? = some input →
      ∃ result, results[position]? = some result ∧ related input result := by
  induction each with
  | nil => exact fun found => nomatch found
  | cons here _ ih =>
    intro position input found
    cases position with
    | zero =>
      cases found
      exact ⟨_, rfl, here⟩
    | succ position => exact ih found

theorem forall₂_with_mem {related : α → β → Prop} {inputs : List α} {results : List β}
    (each : List.Forall₂ related inputs results) :
    List.Forall₂ (fun input result => input ∈ inputs ∧ result ∈ results ∧ related input result)
      inputs results := by
  induction each with
  | nil => exact .nil
  | cons here _ ih =>
    refine .cons ⟨List.mem_cons_self, List.mem_cons_self, here⟩ (ih.imp fun input result known => ?_)
    exact ⟨List.mem_cons_of_mem _ known.1, List.mem_cons_of_mem _ known.2.1, known.2.2⟩

theorem exists_of_mem_of_mapM {compute : α → Except ε β} {input : α} {inputs : List α}
    {results : List β} (mapped : inputs.mapM compute = .ok results) (member : input ∈ inputs) :
    ∃ result ∈ results, compute input = .ok result :=
  exists_of_mem_of_forall₂ (mapM_eq_ok.mp mapped) member

/-- The results of a list of computations whose results are known. -/
theorem mapM_eq_map {compute : α → Except ε β} {value : α → β} {inputs : List α}
    (known : ∀ input ∈ inputs, compute input = .ok (value input)) :
    inputs.mapM compute = .ok (inputs.map value) := by
  rw [mapM_eq_ok, List.forall₂_map_right_iff, List.forall₂_same]
  exact known

/-- If every input has a result, there is a list of results. -/
theorem exists_forall₂ {related : α → β → Prop} {inputs : List α}
    (each : ∀ input ∈ inputs, ∃ result, related input result) :
    ∃ results, List.Forall₂ related inputs results := by
  induction inputs with
  | nil => exact ⟨[], .nil⟩
  | cons input inputs ih =>
    rw [List.forall_mem_cons] at each
    obtain ⟨result, first⟩ := each.1
    obtain ⟨results, rest⟩ := ih each.2
    exact ⟨result :: results, .cons first rest⟩

theorem mapM_eq_error {compute : α → Except ε β} {fault : ε} {inputs : List α}
    (failed : inputs.mapM compute = .error fault) :
    ∃ input ∈ inputs, compute input = .error fault := by
  induction inputs with
  | nil => cases failed
  | cons input inputs ih =>
    rw [List.mapM_cons] at failed
    cases first : compute input with
    | error other =>
      rw [first] at failed
      cases failed
      exact ⟨input, List.mem_cons_self, first⟩
    | ok value =>
      cases rest : inputs.mapM compute with
      | error other =>
        rw [first, rest] at failed
        cases failed
        obtain ⟨later, member, fails⟩ := ih rest
        exact ⟨later, List.mem_cons_of_mem _ member, fails⟩
      | ok values =>
        rw [first, rest] at failed
        cases failed

theorem forM_eq_ok {check : α → Except ε Unit} {inputs : List α} :
    inputs.forM check = .ok () ↔ ∀ input ∈ inputs, check input = .ok () := by
  induction inputs with
  | nil => simp [pure, Except.pure]
  | cons input inputs ih =>
    rw [List.forall_mem_cons, ← ih]
    show (check input >>= fun _ => inputs.forM check) = .ok () ↔ _
    rw [bind_eq_ok]
    constructor
    · rintro ⟨⟨⟩, first, rest⟩
      exact ⟨first, rest⟩
    · rintro ⟨first, rest⟩
      exact ⟨(), first, rest⟩

theorem forM_eq_error {check : α → Except ε Unit} {fault : ε} {inputs : List α}
    (failed : inputs.forM check = .error fault) : ∃ input ∈ inputs, check input = .error fault := by
  induction inputs with
  | nil => cases failed
  | cons input inputs ih =>
    cases first : check input with
    | error other =>
      have failed : (check input >>= fun _ => inputs.forM check) = .error fault := failed
      rw [first] at failed
      cases failed
      exact ⟨input, List.mem_cons_self, first⟩
    | ok passes =>
      have failed : (check input >>= fun _ => inputs.forM check) = .error fault := failed
      rw [first] at failed
      obtain ⟨later, member, fails⟩ := ih failed
      exact ⟨later, List.mem_cons_of_mem _ member, fails⟩

end NestedColumns
