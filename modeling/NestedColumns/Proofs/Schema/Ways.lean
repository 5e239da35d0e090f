/-
Ways through the tree of fields.

`Field.Reaches` follows the path of a leaf down the tree, and `Field.Turns` compares the paths of two
leaves that are visited one after the other: below which of the groups that they share the second
path turns off. It turns to a field further on (`exists_turns_of_mem_leavesAll`), or back to the
repeated field that it came through, to make a new instance of it (`Reaches.turns_again`).
-/

import NestedColumns.Proofs.Schema.Owner

namespace NestedColumns

/-- Members of a list that are told apart by a key have one position each. -/
theorem index_eq_of_nodup_map {α β : Type} {key : α → β} {list : List α}
    (distinct : (list.map key).Nodup) {n m : Nat} {a b : α} (atN : list[n]? = some a)
    (atM : list[m]? = some b) (same : key a = key b) : n = m := by
  have inside : n < (list.map key).length := by
    rw [List.length_map]
    exact (List.getElem?_eq_some_iff.mp atN).1
  refine (List.getElem?_inj inside distinct).mp ?_
  rw [List.getElem?_map, List.getElem?_map, atN, atM, Option.map_some, Option.map_some, same]

namespace Field

namespace WellFormed

variable {label : Label} {fields : List Field} {n m : Nat} {a b : Field}

theorem named (wellFormed : (Field.group label fields).WellFormed) :
    (fields.map (·.label.name)).Nodup := by
  cases wellFormed with
  | group _ _ named _ _ => exact named

theorem child (wellFormed : (Field.group label fields).WellFormed) (found : fields[n]? = some a) :
    a.WellFormed := by
  cases wellFormed with
  | group _ _ _ _ each => exact each a (List.mem_of_getElem? found)

/-- A label on a path tells at which position it goes on. -/
theorem index_eq (wellFormed : (Field.group label fields).WellFormed) (atN : fields[n]? = some a)
    (atM : fields[m]? = some b) (same : a.label = b.label) : n = m := by
  cases wellFormed with
  | group _ _ _ numbered _ =>
    exact index_eq_of_nodup_map numbered atN atM (congrArg Label.id same)

end WellFormed

/-! ### Ways to leaves -/

/-- A path leads from the given fields through covered ones to a leaf of a type. -/
inductive Reaches (covered : FieldId → Bool) (type : ScalarType) : List Field → Path → Prop
  | leaf {fields : List Field} {n : Nat} {label : Label} (found : fields[n]? = some (.leaf label type))
      (among : covered label.id = true) : Reaches covered type fields [label]
  | group {fields : List Field} {n : Nat} {label : Label} {children : List Field} {rest : Path}
      (found : fields[n]? = some (.group label children)) (among : covered label.id = true)
      (below : Reaches covered type children rest) : Reaches covered type fields (label :: rest)

section Reaches

variable {covered : FieldId → Bool} {type : ScalarType} {fields : List Field} {field : Field}
  {path : Path}

theorem Reaches.cons (reaches : Reaches covered type fields path) :
    Reaches covered type (field :: fields) path := by
  cases reaches with
  | leaf found among => exact .leaf (n := _ + 1) found among
  | group found among below => exact .group (n := _ + 1) found among below

theorem Reaches.ne_nil (reaches : Reaches covered type fields path) : path ≠ [] := by
  cases reaches <;> exact List.cons_ne_nil _ _

mutual

theorem exists_reaches_of_mem_leaves {above : Path} {column : Nat} {leaf : Node} :
    ∀ {field : Field}, leaf ∈ field.leaves (above ++ [field.label]) column →
      leaf.type? = some type → (∀ label ∈ leaf.path, covered label.id = true) →
      ∃ rest, leaf.path = above ++ rest ∧ ∀ fields, Reaches covered type (field :: fields) rest
  | .leaf label own, member, typed, among => by
    rw [leaves_leaf, List.mem_singleton] at member
    subst member
    obtain rfl : own = type := Option.some.inj typed
    exact ⟨[label], rfl, fun fields => .leaf (n := 0) rfl (among label (by simp [Field.label]))⟩
  | .group label children, member, typed, among => by
    rw [leaves_group] at member
    obtain ⟨rest, ends, below⟩ := exists_reaches_of_mem_leavesAll member typed among
    rw [List.append_assoc] at ends
    have onPath : label ∈ leaf.path := by
      rw [ends]
      simp [Field.label]
    exact ⟨label :: rest, ends, fun fields => .group (n := 0) rfl (among label onPath) below⟩

/-- The path of every leaf leads to it. -/
theorem exists_reaches_of_mem_leavesAll {above : Path} {column : Nat} {leaf : Node} :
    ∀ {fields : List Field}, leaf ∈ leavesAll above column fields → leaf.type? = some type →
      (∀ label ∈ leaf.path, covered label.id = true) →
      ∃ rest, leaf.path = above ++ rest ∧ Reaches covered type fields rest
  | field :: fields, member, typed, among => by
    rw [leavesAll_cons, List.mem_append] at member
    rcases member with here | later
    · obtain ⟨rest, ends, reaches⟩ := exists_reaches_of_mem_leaves here typed among
      exact ⟨rest, ends, reaches fields⟩
    · obtain ⟨rest, ends, reaches⟩ := exists_reaches_of_mem_leavesAll later typed among
      exact ⟨rest, ends, reaches.cons⟩

end

end Reaches

/-! ### Turning off -/

/-- The second of two paths from the given fields turns off from the first below as many groups as
the number says: to a later field, or to the same repeated one again. -/
inductive Turns : List Field → Path → Path → Nat → Prop
  | later {fields : List Field} {n m : Nat} {a b : Field} {rest rest' : Path}
      (atN : fields[n]? = some a) (atM : fields[m]? = some b) (less : n < m) :
      Turns fields (a.label :: rest) (b.label :: rest') 0
  | again {fields : List Field} {n : Nat} {a : Field} {rest rest' : Path}
      (atN : fields[n]? = some a) (repeats : a.label.cardinality.isRepeated = true) :
      Turns fields (a.label :: rest) (a.label :: rest') 0
  | inside {fields : List Field} {n : Nat} {label : Label} {children : List Field}
      {rest rest' : Path} {depth : Nat} (atN : fields[n]? = some (.group label children))
      (below : Turns children rest rest' depth) :
      Turns fields (label :: rest) (label :: rest') (depth + 1)

section Turns

variable {fields : List Field} {field : Field} {path path' : Path} {depth : Nat}

theorem Turns.cons (turns : Turns fields path path' depth) :
    Turns (field :: fields) path path' depth := by
  cases turns with
  | later atN atM less => exact .later (n := _ + 1) (m := _ + 1) atN atM (Nat.succ_lt_succ less)
  | again atN repeats => exact .again (n := _ + 1) atN repeats
  | inside atN below => exact .inside (n := _ + 1) atN below

/-- **Going back to a repeated field** of a path that both paths share. -/
theorem Reaches.turns_again {covered : FieldId → Bool} {type : ScalarType} {label : Label}
    (reaches : Reaches covered type fields path') (found : path'[depth]? = some label)
    (repeats : label.cardinality.isRepeated = true)
    (shared : path.take (depth + 1) = path'.take (depth + 1)) : Turns fields path path' depth := by
  induction reaches generalizing path depth with
  | @leaf fields n own there among =>
    cases depth with
    | zero =>
      obtain rfl : own = label := Option.some.inj found
      cases path with
      | nil => cases shared
      | cons first rest =>
        obtain rfl : first = own := List.head_eq_of_cons_eq shared
        exact .again (a := .leaf first type) there repeats
    | succ depth => cases found
  | @group fields n own children rest there among below ih =>
    cases path with
    | nil => cases shared
    | cons first rest' =>
      rw [List.take_succ_cons, List.take_succ_cons, List.cons.injEq] at shared
      obtain ⟨rfl, shared⟩ := shared
      cases depth with
      | zero =>
        obtain rfl : first = label := Option.some.inj found
        exact .again (a := .group first children) there repeats
      | succ depth => exact .inside there (ih found shared)

mutual

theorem exists_turns_of_mem_leaves {above : Path} {column : Nat} {a b : Node} :
    ∀ {field : Field}, field.WellFormed → a ∈ field.leaves (above ++ [field.label]) column →
      b ∈ field.leaves (above ++ [field.label]) column → a.column < b.column → a.id ≠ b.id →
      ∃ rest rest' depth, a.path = above ++ rest ∧ b.path = above ++ rest' ∧
        (a.commonAncestorPath b).length = above.length + depth ∧
        ∀ fields, Turns (field :: fields) rest rest' depth
  | .leaf label type, _, first, second, less, _ => by
    rw [leaves_leaf, List.mem_singleton] at first second
    rw [first, second] at less
    exact absurd less (Nat.lt_irrefl _)
  | .group label children, .group _ _ _ numbered each, first, second, less, apart => by
    rw [leaves_group] at first second
    obtain ⟨rest, rest', depth, ends, ends', common, turns⟩ :=
      exists_turns_of_mem_leavesAll each numbered first second less apart
    rw [List.append_assoc] at ends ends'
    refine ⟨label :: rest, label :: rest', depth + 1, ends, ends', ?_, fun fields =>
      .inside (n := 0) rfl turns⟩
    rw [common, List.length_append, List.length_singleton, Nat.add_assoc, Nat.add_comm 1 depth]

/-- **Going on to a later leaf** turns off below the common ancestor. -/
theorem exists_turns_of_mem_leavesAll {above : Path} {column : Nat} {a b : Node} :
    ∀ {fields : List Field}, (∀ field ∈ fields, field.WellFormed) →
      (fields.map (·.label.id)).Nodup → a ∈ leavesAll above column fields →
      b ∈ leavesAll above column fields → a.column < b.column → a.id ≠ b.id →
      ∃ rest rest' depth, a.path = above ++ rest ∧ b.path = above ++ rest' ∧
        (a.commonAncestorPath b).length = above.length + depth ∧ Turns fields rest rest' depth
  | field :: fields, each, numbered, first, second, less, apart => by
    rw [List.forall_mem_cons] at each
    rw [List.map_cons, List.nodup_cons] at numbered
    rw [leavesAll_cons, List.mem_append] at first second
    rcases first with here | later
    · rcases second with here' | later'
      · obtain ⟨rest, rest', depth, ends, ends', common, turns⟩ :=
          exists_turns_of_mem_leaves each.1 here here' less apart
        exact ⟨rest, rest', depth, ends, ends', common, turns fields⟩
      · obtain ⟨other, among, through'⟩ := path_isPrefix_of_mem_leavesAll later'
        have through := path_isPrefix_of_mem_leaves here
        have differ : field.label.id ≠ other.label.id := fun same =>
          numbered.1 (List.mem_map.mpr ⟨other, among, same.symm⟩)
        have common := Node.commonAncestorPath_of_parted through through' differ apart
        obtain ⟨rest, ends⟩ := through
        obtain ⟨rest', ends'⟩ := through'
        obtain ⟨m, atM⟩ := List.getElem?_of_mem among
        rw [List.append_assoc] at ends ends'
        exact ⟨_, _, 0, ends.symm, ends'.symm, congrArg List.length common,
          .later (n := 0) (m := m + 1) rfl atM (Nat.succ_pos m)⟩
    · rcases second with here' | later'
      · have bound := (column_mem_range_of_mem_leaves here').2
        have columns := List.mem_map_of_mem (f := (·.column)) later
        rw [map_column_leavesAll] at columns
        have beyond := (List.mem_range'_1.mp columns).1
        omega
      · obtain ⟨rest, rest', depth, ends, ends', common, turns⟩ :=
          exists_turns_of_mem_leavesAll each.2 numbered.2 later later' less apart
        exact ⟨rest, rest', depth, ends, ends', common, turns.cons⟩

end

end Turns

end Field

end NestedColumns
