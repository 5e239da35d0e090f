/-
The tree that a projection keeps.

`Field.keep` cuts a tree back to its covered fields and gives them new numbers. What the rest of the
library computes from a tree it computes from the smaller tree as well:

* `Field.forall₂_walkAll` — the nodes of the smaller tree are the covered nodes, in the same order
  and with the same path up to numbers, so that they have the same levels;
* `Field.admits_keep` — the smaller tree admits what erasure leaves of an admitted value;
* `Field.stripe_eraseFields` — and a covered leaf has the same rows there.

A group is covered exactly if a field immediately below it is (`Field.Spanned`).
-/

import NestedColumns.Proofs.Projection.Erasure
import NestedColumns.Proofs.Schema.Ways
import NestedColumns.Proofs.Striping.Stripe

namespace NestedColumns

variable {covered : FieldId → Bool} {number : FieldId → FieldId}

/-! ### New numbers -/

/-- The label with a new number. -/
def Label.renumber (number : FieldId → FieldId) (label : Label) : Label :=
  { label with id := number label.id }

namespace Path

/-- The path with new numbers. -/
def renumber (number : FieldId → FieldId) (path : Path) : Path :=
  path.map (Label.renumber number)

theorem renumber_concat (path : Path) (label : Label) :
    renumber number (path ++ [label]) = renumber number path ++ [label.renumber number] :=
  List.map_append

theorem repetitionLevel_renumber (path : Path) :
    repetitionLevel (renumber number path) = repetitionLevel path :=
  List.countP_map

theorem definitionLevel_renumber (path : Path) :
    definitionLevel (renumber number path) = definitionLevel path :=
  List.countP_map

theorem text_renumber (path : Path) : text (renumber number path) = text path := by
  unfold text renumber
  rw [List.map_map]
  rfl

theorem ids_renumber (path : Path) : ids (renumber number path) = (ids path).map number := by
  unfold ids renumber
  rw [List.map_map, List.map_map]
  rfl

/-- Two paths share what they shared before, if numbers that differ stay apart. -/
theorem shared_renumber : ∀ {first second : Path},
    (∀ a ∈ first, ∀ b ∈ second, number a.id = number b.id → a.id = b.id) →
      shared (renumber number first) (renumber number second) = renumber number (shared first second)
  | [], second, _ => by rw [shared_nil_left]; exact shared_nil_left _
  | a :: as, [], _ => rfl
  | a :: as, b :: bs, apart => by
    have onward : ∀ a ∈ as, ∀ b ∈ bs, number a.id = number b.id → a.id = b.id :=
      fun a first b second => apart a (List.mem_cons_of_mem _ first) b (List.mem_cons_of_mem _ second)
    have same : number a.id = number b.id ↔ a.id = b.id :=
      ⟨apart a List.mem_cons_self b List.mem_cons_self, congrArg number⟩
    show (if number a.id = number b.id then _ else _) =
      renumber number (if a.id = b.id then _ else _)
    by_cases here : a.id = b.id
    · rw [if_pos here, if_pos (same.mpr here)]
      exact congrArg (a.renumber number :: ·) (shared_renumber onward)
    · rw [if_neg here, if_neg fun numbers => here (same.mp numbers)]
      rfl

end Path

/-! ### The covered fields of a tree -/

namespace Field

mutual

/-- A covered field without the fields below it that are not covered, with new numbers. -/
def keep (covered : FieldId → Bool) (number : FieldId → FieldId) : Field → Field
  | .leaf label type => .leaf (label.renumber number) type
  | .group label children => .group (label.renumber number) (keepAll covered number children)
termination_by structural field => field

/-- The covered ones among the given fields, at every depth, with new numbers. -/
def keepAll (covered : FieldId → Bool) (number : FieldId → FieldId) : List Field → List Field
  | [] => []
  | field :: fields =>
    if covered field.label.id then field.keep covered number :: keepAll covered number fields
    else keepAll covered number fields
termination_by structural fields => fields

end

theorem keepAll_eq (fields : List Field) : keepAll covered number fields =
    (fields.filter fun field => covered field.label.id).map (keep covered number) := by
  induction fields with
  | nil => rfl
  | cons field fields ih =>
    rw [keepAll, ih, List.filter_cons]
    split <;> rfl

theorem label_keep (field : Field) :
    (field.keep covered number).label = field.label.renumber number := by
  cases field <;> rfl

theorem type?_keep (field : Field) : (field.keep covered number).type? = field.type? := by
  cases field <;> rfl

/-- At every depth a group is covered exactly if a field immediately below it is. -/
inductive Spanned (covered : FieldId → Bool) : Field → Prop
  | leaf (label : Label) (type : ScalarType) : Spanned covered (.leaf label type)
  | group {label : Label} {children : List Field}
      (spans : covered label.id = true ↔ ∃ child ∈ children, covered child.label.id = true)
      (each : ∀ child ∈ children, child.Spanned covered) : Spanned covered (.group label children)

mutual

theorem spanned_of_walk {picked : Node → Prop} {path : Path} {column : Nat} :
    ∀ {field : Field}, (∀ node ∈ field.walk path column,
      covered node.id = true ↔ ∃ leaf ∈ node.leaves, picked leaf) → field.Spanned covered
  | .leaf label type, _ => .leaf label type
  | .group label children, covers => by
    rw [walk, List.forall_mem_cons] at covers
    obtain ⟨each, spans⟩ := spannedAll_of_walkAll covers.2
    exact .group (covers.1.trans spans) each

/-- If the covered nodes are those with a picked leaf, every group is spanned. -/
theorem spannedAll_of_walkAll {picked : Node → Prop} {path : Path} {column : Nat} :
    ∀ {fields : List Field}, (∀ node ∈ walkAll path column fields,
      covered node.id = true ↔ ∃ leaf ∈ node.leaves, picked leaf) →
      (∀ field ∈ fields, field.Spanned covered) ∧
        ((∃ leaf ∈ leavesAll path column fields, picked leaf) ↔
          ∃ field ∈ fields, covered field.label.id = true)
  | [], _ => by simp [leavesAll_nil]
  | field :: fields, covers => by
    rw [walkAll, List.forall_mem_append] at covers
    obtain ⟨each, spans⟩ := spannedAll_of_walkAll covers.2
    have here : covered field.label.id = true ↔
        ∃ leaf ∈ field.leaves (path ++ [field.label]) column, picked leaf := by
      refine covers.1 ⟨path ++ [field.label], column, field⟩ ?_
      cases field <;> exact List.mem_cons_self
    rw [List.forall_mem_cons]
    refine ⟨⟨spanned_of_walk covers.1, each⟩, ?_⟩
    rw [leavesAll_cons]
    simp only [List.mem_append, List.mem_cons, or_and_right, exists_or, exists_eq_left, here, spans]

end

/-! ### What remains of a record -/

/-- An erased record has no names that the smaller tree does not know. -/
theorem Erases.unknownName?_eq_none {fields : List Field} {record after : Record}
    (erases : Erases covered fields record Record.empty after) :
    unknownName? (keepAll covered number fields) after = none := by
  rw [unknownName?_eq_none_iff]
  intro entry member
  by_contra unknown
  have among : entry ∈ after.entries := List.mem_of_mem_filter member
  obtain ⟨some, values⟩ := (erases.sorted.mem_entries_iff erases.inhabited).mp among
  have apart : ∀ field ∈ fields, covered field.label.id = true → field.label.name ≠ entry.1 := by
    intro field listed covers same
    have kept : field.keep covered number ∈ keepAll covered number fields := by
      rw [keepAll_eq]
      exact List.mem_map_of_mem (List.mem_filter.mpr ⟨listed, covers⟩)
    have named : (field.keep covered number).label.name = entry.1 := by
      rw [label_keep]
      exact same
    exact unknown ⟨_, kept, named⟩
  rw [erases.other _ apart] at values
  exact some values.symm

mutual

/-- **The smaller tree admits what erasure leaves** of a value that the tree admits. -/
theorem admits_keep : ∀ {field : Field} {value : Value}, field.WellFormed → field.Admits value →
    (field.keep covered number).Admits (field.eraseValue covered value)
  | .leaf label type, value, _, admitted => by
    rw [eraseValue, keep, Admits]
    · rwa [Admits] at admitted
    · simp
  | .group label children, .record record, .group _ _ named _ each, admitted => by
    rw [Admits] at admitted
    have erases := erases_empty covered record named
    rw [eraseValue, keep, Admits]
    exact ⟨erases.unknownName?_eq_none, admitsAll_keepAll each erases.own admitted.2⟩
  | .group label children, .scalar content, _, admitted => by
    rw [Admits] at admitted
    cases admitted

theorem admitsAll_keepAll {record kept : Record} : ∀ {fields : List Field},
    (∀ field ∈ fields, field.WellFormed) →
      (∀ field ∈ fields, covered field.label.id = true → kept.getAll field.label.name =
        (record.getAll field.label.name).map fun value => field.eraseValue covered value) →
      AdmitsAll fields record → AdmitsAll (keepAll covered number fields) kept
  | [], _, _, _ => by
    rw [keepAll, AdmitsAll]
    trivial
  | field :: fields, each, values, admitted => by
    rw [List.forall_mem_cons] at each values
    rw [AdmitsAll] at admitted
    have rest := admitsAll_keepAll each.2 values.2 admitted.2
    rw [keepAll]
    by_cases covers : covered field.label.id = true
    · rw [if_pos covers, AdmitsAll, label_keep]
      refine ⟨?_, rest⟩
      show field.label.cardinality.Allows (kept.getAll field.label.name).length ∧
        ∀ value ∈ kept.getAll field.label.name, (field.keep covered number).Admits value
      rw [values.1 covers, List.length_map, List.forall_mem_map]
      exact ⟨admitted.1.1, fun value among => admits_keep each.1 (admitted.1.2 value among)⟩
    · rwa [if_neg covers]

end

/-- The rows of a leaf for the values of one field, if each of the values has the same rows. -/
theorem stripe_cons_eq {above rest : Path} {label : Label} {level : Level} {record kept : Record}
    {erase : Value → Value} (values : kept.getAll label.name = (record.getAll label.name).map erase)
    (each : ∀ level value, stripe (Path.renumber number (above ++ [label]))
      (Path.renumber number rest) level (erase value) = stripe (above ++ [label]) rest level value) :
    stripe (Path.renumber number above) (Path.renumber number (label :: rest)) level
      (.record kept) = stripe above (label :: rest) level (.record record) := by
  have below : Path.renumber number above ++ [label.renumber number] =
      Path.renumber number (above ++ [label]) := (Path.renumber_concat above label).symm
  show stripe _ (label.renumber number :: Path.renumber number rest) level _ = _
  rw [stripe, stripe, below, Path.definitionLevel_renumber, Path.repetitionLevel_renumber]
  have values : kept.getAll (label.renumber number).name = _ := values
  rw [values]
  cases record.getAll label.name with
  | nil => rfl
  | cons first more =>
    rw [List.map_cons]
    dsimp only
    rw [each, List.flatMap_map]
    simp only [each]

/-- **A covered leaf has the same rows** for what erasure leaves of a record. -/
theorem stripe_eraseFields {type : ScalarType} {fields : List Field} {rest : Path}
    (reaches : Reaches covered type fields rest) :
    ∀ {above : Path} {level : Level} {record : Record},
      (∀ field ∈ fields, field.WellFormed) → (fields.map (·.label.name)).Nodup →
      stripe (Path.renumber number above) (Path.renumber number rest) level
        (.record (eraseFields covered fields record Record.empty)) =
          stripe above rest level (.record record) := by
  induction reaches with
  | leaf found among =>
    intro above level record each named
    have erases := erases_empty covered record named
    refine stripe_cons_eq (erases.own _ (List.mem_of_getElem? found) among) fun level value => ?_
    rw [eraseValue]
    · show [(⟨some value, level, _⟩ : Row)] = [⟨some value, level, _⟩]
      rw [Path.definitionLevel_renumber]
    · simp
  | @group fields n label children rest found among below ih =>
    intro above level record each named
    have member := List.mem_of_getElem? found
    have erases := erases_empty covered record named
    refine stripe_cons_eq (erases.own _ member among) fun level value => ?_
    cases value with
    | scalar content =>
      obtain ⟨next, onward, rfl⟩ := List.exists_cons_of_ne_nil below.ne_nil
      rfl
    | record inner =>
      rw [eraseValue]
      cases each _ member with
      | group _ _ named _ each => exact ih each named

end Field

/-! ### The nodes of the smaller tree -/

/-- A node of a tree, and the same node of the smaller tree. -/
structure Node.Keeps (covered : FieldId → Bool) (number : FieldId → FieldId) (node kept : Node) :
    Prop where
  path : kept.path = Path.renumber number node.path
  field : kept.field = node.field.keep covered number

namespace Node.Keeps

variable {node kept : Node}

theorem label (keeps : node.Keeps covered number kept) :
    kept.label = node.label.renumber number := by
  rw [Node.label, keeps.field, Field.label_keep]
  rfl

theorem id (keeps : node.Keeps covered number kept) : kept.id = number node.id := by
  rw [Node.id, keeps.label]
  rfl

theorem name (keeps : node.Keeps covered number kept) : kept.name = node.name := by
  rw [Node.name, keeps.label]
  rfl

theorem cardinality (keeps : node.Keeps covered number kept) :
    kept.cardinality = node.cardinality := by
  rw [Node.cardinality, keeps.label]
  rfl

theorem type? (keeps : node.Keeps covered number kept) : kept.type? = node.type? := by
  rw [Node.type?, keeps.field, Field.type?_keep]
  rfl

theorem isLeaf (keeps : node.Keeps covered number kept) : kept.isLeaf = node.isLeaf :=
  congrArg Option.isSome keeps.type?

theorem maxRepetition (keeps : node.Keeps covered number kept) :
    kept.maxRepetition = node.maxRepetition := by
  rw [Node.maxRepetition, keeps.path, Path.repetitionLevel_renumber]
  rfl

theorem maxDefinition (keeps : node.Keeps covered number kept) :
    kept.maxDefinition = node.maxDefinition := by
  rw [Node.maxDefinition, keeps.path, Path.definitionLevel_renumber]
  rfl

theorem pathText (keeps : node.Keeps covered number kept) : kept.pathText = node.pathText := by
  rw [Node.pathText, keeps.path, Path.text_renumber]
  rfl

theorem ancestry (keeps : node.Keeps covered number kept) :
    kept.ancestry = node.ancestry.map number := by
  rw [Node.ancestry, keeps.path, Path.ids_renumber]
  rfl

end Node.Keeps

namespace Field

mutual

theorem filter_walk_eq_nil {path : Path} {column : Nat} : ∀ {field : Field}, field.Spanned covered →
    ¬ covered field.label.id = true → (field.walk path column).filter (covered ·.id) = []
  | .leaf label type, _, uncovered => List.filter_cons_of_neg uncovered
  | .group label children, .group spans each, uncovered => by
    rw [walk, List.filter_cons_of_neg (by exact uncovered)]
    refine filter_walkAll_eq_nil each fun child member covers => ?_
    exact uncovered (spans.mpr ⟨child, member, covers⟩)

/-- Nothing at or below a field that is not covered is covered. -/
theorem filter_walkAll_eq_nil {path : Path} {column : Nat} : ∀ {fields : List Field},
    (∀ field ∈ fields, field.Spanned covered) →
      (∀ field ∈ fields, ¬ covered field.label.id = true) →
      (walkAll path column fields).filter (covered ·.id) = []
  | [], _, _ => rfl
  | field :: fields, each, uncovered => by
    rw [List.forall_mem_cons] at each uncovered
    rw [walkAll, List.filter_append, filter_walk_eq_nil each.1 uncovered.1,
      filter_walkAll_eq_nil each.2 uncovered.2]
    rfl

end

mutual

theorem forall₂_walk {path : Path} {column column' : Nat} : ∀ {field : Field},
    field.Spanned covered → covered field.label.id = true →
      List.Forall₂ (Node.Keeps covered number) ((field.walk path column).filter (covered ·.id))
        ((field.keep covered number).walk (Path.renumber number path) column')
  | .leaf label type, _, covers => by
    rw [walk, List.filter_cons_of_pos (by exact covers)]
    exact .cons ⟨rfl, rfl⟩ .nil
  | .group label children, .group _ each, covers => by
    rw [walk, List.filter_cons_of_pos (by exact covers), keep, walk]
    exact .cons ⟨rfl, by rw [keep]⟩ (forall₂_walkAll each)

/-- **The nodes of the smaller tree are the covered nodes**, in order. -/
theorem forall₂_walkAll {path : Path} {column column' : Nat} : ∀ {fields : List Field},
    (∀ field ∈ fields, field.Spanned covered) →
      List.Forall₂ (Node.Keeps covered number) ((walkAll path column fields).filter (covered ·.id))
        (walkAll (Path.renumber number path) column' (keepAll covered number fields))
  | [], _ => .nil
  | field :: fields, each => by
    rw [List.forall_mem_cons] at each
    rw [walkAll, List.filter_append, keepAll]
    by_cases covers : covered field.label.id = true
    · rw [if_pos covers, walkAll, label_keep, ← Path.renumber_concat]
      exact List.rel_append (forall₂_walk each.1 covers) (forall₂_walkAll each.2)
    · rw [if_neg covers, filter_walk_eq_nil each.1 covers]
      exact forall₂_walkAll each.2

end

end Field

end NestedColumns
