/-
The list of a draft and the schema that is made of it.

The entries of a draft stand depth first, a field before its children. The numbers are counted while
the fields are listed, so the proofs go by the lists of siblings: `FieldDraft.StandsIn` splits the
list of a forest at one of its fields into what is before it, the field with the forest below it, and
what is behind. Nothing outside has its parent inside.

* `FieldDraft.standsIn_entriesAll` — **every field stands in the list** of its forest.
* `ListsDepthFirst` — what it means that a list has the fields of a draft in depth-first order: a
  parent stands before its children, and what is below a field has the numbers that follow its own.
* `Schema.Shows` — the schema, read from a node down, is a field draft.
* `SchemaDraft.nodeList_and_finish` — **a draft and its schema describe the same tree.**
-/

import NestedColumns.Proofs.Schema.Derived

namespace NestedColumns

/-! ### Forests of fields -/

namespace FieldDraft

mutual

/-- A field and everything below it, depth first. -/
def preorder : FieldDraft → List FieldDraft
  | ⟨name, cardinality, type, children⟩ =>
    ⟨name, cardinality, type, children⟩ :: preorderAll children
termination_by structural draft => draft

def preorderAll : List FieldDraft → List FieldDraft
  | [] => []
  | draft :: drafts => draft.preorder ++ preorderAll drafts
termination_by structural drafts => drafts

end

/-- How many fields there are at and below a field. -/
def size (draft : FieldDraft) : Nat :=
  draft.preorder.length

/-- The entry of a field with a parent. -/
def entry (draft : FieldDraft) (parent : Option FieldId) : NodeEntry :=
  ⟨draft.name, draft.cardinality, draft.type, parent⟩

/-- The numbers of siblings, when the first of them has number `start`. -/
def starts (start : FieldId) : List FieldDraft → List FieldId
  | [] => []
  | draft :: drafts => start :: starts (start + draft.size) drafts

theorem preorder_eq (draft : FieldDraft) : draft.preorder = draft :: preorderAll draft.children := by
  cases draft
  rfl

theorem entries_eq (draft : FieldDraft) (parent id : FieldId) :
    draft.entries parent id = draft.entry (some parent) :: entriesAll id (id + 1) draft.children := by
  cases draft
  rfl

theorem size_eq (draft : FieldDraft) : draft.size = (preorderAll draft.children).length + 1 := by
  rw [size, preorder_eq, List.length_cons]

mutual

theorem length_entries (parent id : FieldId) : ∀ draft : FieldDraft,
    (draft.entries parent id).length = draft.size
  | ⟨_, _, _, children⟩ => by
    rw [entries_eq, size_eq, List.length_cons, length_entriesAll]

theorem length_entriesAll (parent start : FieldId) : ∀ drafts : List FieldDraft,
    (entriesAll parent start drafts).length = (preorderAll drafts).length
  | [] => rfl
  | draft :: drafts => by
    rw [entriesAll, preorderAll, List.length_append, List.length_append, length_entriesAll,
      length_entries]
    rfl

end

/-- A forest is listed with its first tree in front. -/
theorem entriesAll_cons (parent start : FieldId) (draft : FieldDraft) (drafts : List FieldDraft) :
    entriesAll parent start (draft :: drafts) =
      draft.entries parent start ++ entriesAll parent (start + draft.size) drafts := by
  rw [entriesAll, length_entries]

theorem length_preorderAll_cons (draft : FieldDraft) (drafts : List FieldDraft) :
    (preorderAll (draft :: drafts)).length = draft.size + (preorderAll drafts).length := by
  rw [preorderAll, List.length_append, size]

mutual

/-- The parent of an entry of a tree is the parent of the tree or in the tree. -/
theorem parent_of_mem_entries {entry : NodeEntry} {parent start : Nat} :
    ∀ {draft : FieldDraft}, entry ∈ draft.entries parent start →
      ∃ above : Nat, entry.parent = some above ∧
        (above = parent ∨ start ≤ above ∧ above < start + draft.size)
  | ⟨name, cardinality, type, children⟩, listed => by
    rw [entries_eq, List.mem_cons] at listed
    rw [size_eq]
    rcases listed with rfl | inside
    · exact ⟨parent, rfl, .inl rfl⟩
    · obtain ⟨above, linked, here⟩ := parent_of_mem_entriesAll inside
      exact ⟨above, linked, .inr (by omega)⟩

/-- The parent of an entry of a forest is the parent of the forest or in the forest. -/
theorem parent_of_mem_entriesAll {entry : NodeEntry} {parent start : Nat} :
    ∀ {drafts : List FieldDraft}, entry ∈ entriesAll parent start drafts →
      ∃ above : Nat, entry.parent = some above ∧
        (above = parent ∨ start ≤ above ∧ above < start + (preorderAll drafts).length)
  | [], listed => absurd listed List.not_mem_nil
  | draft :: drafts, listed => by
    rw [entriesAll_cons, List.mem_append] at listed
    rw [length_preorderAll_cons]
    rcases listed with inside | behind
    · obtain ⟨above, linked, here⟩ := parent_of_mem_entries inside
      exact ⟨above, linked, by omega⟩
    · obtain ⟨above, linked, here⟩ := parent_of_mem_entriesAll behind
      exact ⟨above, linked, by omega⟩

end

/-! ### A field in the list of its forest -/

/-- **A field stands in a list** that starts with the number `start`: the list is split into the
entries before the field, the field with the forest below it, and the entries behind. The field is
linked to an entry before it, if it is not the root, and nothing outside has its parent inside. The
fields in depth-first order are split at the same place. -/
inductive StandsIn (start id : Nat) (field : FieldDraft) :
    List NodeEntry → List FieldDraft → Prop
  | split {front back : List NodeEntry} {before after : List FieldDraft} {parent : Option FieldId}
      (position : start + front.length = id) (place : before.length = front.length)
      (linked : parent = none ∧ id = rootId ∨ ∃ above : Nat, above < id ∧ parent = some above)
      (apart : ∀ entry ∈ front ++ back, ∀ above : Nat, entry.parent = some above →
        above < id ∨ id + field.size ≤ above) :
      StandsIn start id field
        (front ++ field.entry parent :: (entriesAll id (id + 1) field.children ++ back))
        (before ++ (field.preorder ++ after))

namespace StandsIn

variable {start id : Nat} {field : FieldDraft} {entries : List NodeEntry} {fields : List FieldDraft}

/-- The numbers of the subtree are those of entries of the list. -/
theorem bounds (stands : StandsIn start id field entries fields) :
    start ≤ id ∧ id + field.size ≤ start + entries.length := by
  cases stands with
  | split position place linked apart =>
    rw [List.length_append, List.length_cons, List.length_append, length_entriesAll, size_eq]
    omega

/-- A field stands in the list of its own tree. -/
theorem self {parent : Option FieldId}
    (linked : parent = none ∧ id = rootId ∨ ∃ above : Nat, above < id ∧ parent = some above) :
    StandsIn id id field (field.entry parent :: entriesAll id (id + 1) field.children)
      field.preorder := by
  have split : StandsIn id id field
      ([] ++ field.entry parent :: (entriesAll id (id + 1) field.children ++ []))
      ([] ++ (field.preorder ++ [])) := .split rfl rfl linked (List.forall_mem_nil _)
  rwa [List.append_nil, List.append_nil] at split

/-- More entries may stand in front. -/
theorem prepend {next : Nat} {front : List NodeEntry} {before : List FieldDraft}
    (stands : StandsIn next id field entries fields) (shift : start + front.length = next)
    (place : before.length = front.length)
    (apart : ∀ entry ∈ front, ∀ above : Nat, entry.parent = some above →
      above < id ∨ id + field.size ≤ above) :
    StandsIn start id field (front ++ entries) (before ++ fields) := by
  cases stands with
  | split position place' linked apart' =>
    rw [← List.append_assoc, ← List.append_assoc]
    refine .split ?_ ?_ linked ?_
    · rw [List.length_append]
      omega
    · rw [List.length_append, List.length_append, place, place']
    · rw [List.append_assoc]
      exact List.forall_mem_append.mpr ⟨apart, apart'⟩

/-- More entries may stand behind. -/
theorem append {back : List NodeEntry} {after : List FieldDraft}
    (stands : StandsIn start id field entries fields)
    (apart : ∀ entry ∈ back, ∀ above : Nat, entry.parent = some above →
      above < id ∨ id + field.size ≤ above) :
    StandsIn start id field (entries ++ back) (fields ++ after) := by
  cases stands with
  | split position place linked apart' =>
    simp only [List.append_assoc, List.cons_append]
    refine .split position place linked ?_
    rw [← List.append_assoc]
    exact List.forall_mem_append.mpr ⟨apart', apart⟩

end StandsIn

mutual

/-- Every field of a tree stands in its list. -/
theorem standsIn_entries {field : FieldDraft} {parent start k : Nat} (less : parent < start) :
    ∀ {draft : FieldDraft}, draft.preorder[k]? = some field →
      StandsIn start (start + k) field (draft.entries parent start) draft.preorder
  | ⟨name, cardinality, type, children⟩, found => by
    rw [entries_eq]
    cases k with
    | zero =>
      obtain rfl := Option.some.inj found
      exact .self (.inr ⟨parent, less, rfl⟩)
    | succ k =>
      have stands := standsIn_entriesAll (Nat.lt_succ_self start) found
      rw [show start + (k + 1) = start + 1 + k by omega]
      show StandsIn _ _ _ ([_] ++ _) ([_] ++ _)
      refine stands.prepend rfl rfl (List.forall_mem_singleton.mpr fun above linked => ?_)
      obtain rfl : parent = above := Option.some.inj linked
      omega

/-- **Every field of a forest stands in its list.** -/
theorem standsIn_entriesAll {field : FieldDraft} {parent start k : Nat} (less : parent < start) :
    ∀ {drafts : List FieldDraft}, (preorderAll drafts)[k]? = some field →
      StandsIn start (start + k) field (entriesAll parent start drafts) (preorderAll drafts)
  | draft :: drafts, found => by
    rw [entriesAll_cons, preorderAll]
    rw [preorderAll] at found
    by_cases inside : k < draft.size
    · rw [List.getElem?_append_left inside] at found
      have stands := standsIn_entries less found
      have bounds := stands.bounds
      rw [length_entries] at bounds
      refine stands.append fun entry listed above linked => ?_
      obtain ⟨other, own, here⟩ := parent_of_mem_entriesAll listed
      obtain rfl := Option.some.inj (own.symm.trans linked)
      omega
    · have apart : draft.size ≤ k := Nat.le_of_not_lt inside
      rw [List.getElem?_append_right apart] at found
      have stands := standsIn_entriesAll (Nat.lt_of_lt_of_le less (Nat.le_add_right start draft.size))
        found
      rw [show start + draft.size + (k - draft.preorder.length) = start + k by
        rw [← size]; omega] at stands
      have length := length_entries parent start draft
      refine stands.prepend (by rw [length]) length.symm fun entry listed above linked => ?_
      obtain ⟨other, own, here⟩ := parent_of_mem_entries listed
      obtain rfl := Option.some.inj (own.symm.trans linked)
      omega

end

/-- **Where an entry stands**: outside of the subtree of a field, with its parent outside; as the field
itself; or below the field, with its parent in the subtree. -/
theorem StandsIn.position {id other : Nat} {field : FieldDraft} {entries : List NodeEntry}
    {fields : List FieldDraft} {entry : NodeEntry} (stands : StandsIn rootId id field entries fields)
    (listed : entries[other]? = some entry) :
    ((other < id ∨ id + field.size ≤ other) ∧ ∀ above : Nat, entry.parent = some above →
        above < id ∨ id + field.size ≤ above) ∨
      (other = id ∧ ∃ parent, entry = field.entry parent ∧
        (parent = none ∧ id = rootId ∨ ∃ above : Nat, above < id ∧ parent = some above)) ∨
      ((id < other ∧ other < id + field.size) ∧ ∃ above : Nat, entry.parent = some above ∧
        id ≤ above ∧ above < id + field.size) := by
  cases stands with
  | @split front back before after parent position place linked apart =>
    obtain rfl : front.length = id := (Nat.zero_add _).symm.trans position
    have sizes := field.size_eq
    rw [List.getElem?_append] at listed
    split at listed
    · next inFront =>
      have among := List.mem_append_left back (List.mem_of_getElem? listed)
      exact .inl ⟨.inl inFront, apart entry among⟩
    · next further =>
      obtain ⟨k, rfl⟩ := Nat.exists_eq_add_of_le (Nat.le_of_not_lt further)
      rw [Nat.add_sub_cancel_left] at listed
      cases k with
      | zero => exact .inr (.inl ⟨rfl, parent, (Option.some.inj listed).symm, linked⟩)
      | succ k =>
        rw [List.getElem?_cons_succ, List.getElem?_append, length_entriesAll] at listed
        split at listed
        · next inside =>
          obtain ⟨above, own, here⟩ := parent_of_mem_entriesAll (List.mem_of_getElem? listed)
          exact .inr (.inr ⟨by omega, above, own, by omega⟩)
        · next behind =>
          have among := List.mem_append_right front (List.mem_of_getElem? listed)
          exact .inl ⟨by omega, apart entry among⟩

/-! ### Numbers of siblings -/

/-- Siblings stand at their numbers. -/
theorem forall₂_starts : ∀ (drafts before after : List FieldDraft),
    List.Forall₂ (fun id draft => (before ++ (preorderAll drafts ++ after))[id]? = some draft)
      (starts before.length drafts) drafts
  | [], _, _ => .nil
  | draft :: drafts, before, after => by
    have later := forall₂_starts drafts (before ++ draft.preorder) after
    rw [List.length_append, List.append_assoc] at later
    rw [starts, preorderAll, List.append_assoc]
    refine .cons ?_ later
    rw [List.getElem?_append_right (Nat.le_refl _), Nat.sub_self, preorder_eq]
    rfl

/-- The children of a field that stands in a list stand at the numbers that follow. -/
theorem StandsIn.forall₂_starts {id : Nat} {field : FieldDraft} {entries : List NodeEntry}
    {fields : List FieldDraft} (stands : StandsIn rootId id field entries fields) :
    List.Forall₂ (fun id child => fields[id]? = some child) (starts (id + 1) field.children)
      field.children := by
  cases stands with
  | @split front back before after parent position place linked apart =>
    have children := FieldDraft.forall₂_starts field.children (before ++ [field]) after
    have here : before.length = id := place.trans ((Nat.zero_add _).symm.trans position)
    rw [List.length_append, here, List.append_assoc] at children
    rw [preorder_eq]
    exact children

end FieldDraft

namespace Schema

open FieldDraft

variable {entries : List NodeEntry} {id : Nat}

theorem childEntries_append (front back : List NodeEntry) (start id : Nat) :
    childEntries ((front ++ back).zipIdx start) id =
      childEntries (front.zipIdx start) id ++ childEntries (back.zipIdx (start + front.length)) id := by
  unfold childEntries
  rw [List.zipIdx_append, List.filter_append]

theorem childEntries_eq_nil {start : Nat} (apart : ∀ entry ∈ entries, entry.parent ≠ some id) :
    childEntries (entries.zipIdx start) id = [] := by
  refine List.filter_eq_nil_iff.mpr fun numbered listed => ?_
  simpa using apart numbered.1 (List.fst_mem_of_mem_zipIdx listed)

/-- The entries of a forest with the parent of the forest are its top-level fields. -/
theorem map_snd_childEntries_entriesAll {parent : Nat} : ∀ (drafts : List FieldDraft) {start : Nat},
    parent < start →
      (childEntries ((entriesAll parent start drafts).zipIdx start) parent).map Prod.snd =
        starts start drafts
  | [], _, _ => rfl
  | draft :: drafts, start, less => by
    have later := map_snd_childEntries_entriesAll drafts
      (Nat.lt_of_lt_of_le less (Nat.le_add_right start draft.size))
    have below : childEntries ((entriesAll start (start + 1) draft.children).zipIdx (start + 1)) parent =
        [] := by
      refine childEntries_eq_nil fun entry listed linked => ?_
      obtain ⟨above, own, here⟩ := parent_of_mem_entriesAll listed
      obtain rfl := Option.some.inj (own.symm.trans linked)
      omega
    have here : childEntries ((draft.entries parent start).zipIdx start) parent =
        [(draft.entry (some parent), start)] := by
      rw [entries_eq, List.zipIdx_cons, childEntries, List.filter_cons_of_pos (by simp [entry])]
      exact congrArg _ below
    rw [entriesAll_cons, childEntries_append, length_entries, here, List.map_append, later]
    rfl

/-- The entries with a field as their parent are its children. -/
theorem map_snd_childEntries_of_standsIn {start : Nat} {field : FieldDraft} {fields : List FieldDraft}
    (stands : StandsIn start id field entries fields) :
    (childEntries (entries.zipIdx start) id).map Prod.snd = starts (id + 1) field.children := by
  cases stands with
  | @split front back before after parent position place linked apart =>
    have sizes := field.size_eq
    have outside : ∀ entry ∈ front ++ back, entry.parent ≠ some id := by
      intro entry listed own
      have away := apart entry listed id own
      omega
    have above : ¬ parent = some id := by
      rintro rfl
      rcases linked with ⟨⟨⟩, _⟩ | ⟨above, less, same⟩
      exact absurd (Option.some.inj same) (Nat.ne_of_gt less)
    rw [List.forall_mem_append] at outside
    rw [childEntries_append, childEntries_eq_nil outside.1, List.nil_append, position,
      List.zipIdx_cons, childEntries, List.filter_cons_of_neg (by exact mt of_decide_eq_true above)]
    show (childEntries ((entriesAll id (id + 1) field.children ++ back).zipIdx (id + 1)) id).map _ = _
    rw [childEntries_append, childEntries_eq_nil outside.2, List.append_nil,
      map_snd_childEntries_entriesAll _ (Nat.lt_succ_self id)]

end Schema

/-! ### The whole list -/

/-- The root of a draft as a field: a group of the top-level fields. -/
def SchemaDraft.root (draft : SchemaDraft) : FieldDraft :=
  .group draft.name .required draft.fields

/-- An entry is at or below another if its parents lead up to it. -/
inductive AtOrBelow (entries : List NodeEntry) (top : FieldId) : FieldId → Prop
  | self : AtOrBelow entries top top
  | child {id parent : FieldId} {entry : NodeEntry} (listed : entries[id]? = some entry)
      (linked : entry.parent = some parent) (above : AtOrBelow entries top parent) :
      AtOrBelow entries top id

/-- **A list has the fields of a draft in depth-first order.** -/
structure ListsDepthFirst (entries : List NodeEntry) (draft : FieldDraft) : Prop where
  length : entries.length = draft.size
  /-- At each place the field is shown that is met there when they are walked through depth first.
  Only the root has no parent, and every parent stands before its children. -/
  shows : ∀ id field, draft.preorder[id]? = some field →
    ∃ parent, entries[id]? = some (field.entry parent) ∧
      (parent = none ∧ id = rootId ∨ ∃ above : Nat, above < id ∧ parent = some above)
  /-- The entries with a field as their parent are its children, in order. -/
  children : ∀ id field, draft.preorder[id]? = some field →
    List.Forall₂ (fun id child => draft.preorder[id]? = some child) (Schema.childIds entries id)
      field.children
  /-- What is at and below a field has the numbers from its own on. -/
  contiguous : ∀ id field, draft.preorder[id]? = some field → ∀ other,
    AtOrBelow entries id other ↔ id ≤ other ∧ other < id + field.size

namespace SchemaDraft

variable (draft : SchemaDraft) {id : Nat} {field : FieldDraft}

theorem entries_eq : draft.entries =
    draft.root.entry none :: FieldDraft.entriesAll rootId (rootId + 1) draft.root.children := rfl

theorem length_entries : draft.entries.length = draft.root.size := by
  rw [entries_eq, List.length_cons, FieldDraft.length_entriesAll, FieldDraft.size_eq]

/-- Every field of a draft stands in its list. -/
theorem standsIn (found : draft.root.preorder[id]? = some field) :
    FieldDraft.StandsIn rootId id field draft.entries draft.root.preorder := by
  rw [entries_eq]
  cases id with
  | zero =>
    obtain rfl := Option.some.inj found
    exact .self (.inl ⟨rfl, rfl⟩)
  | succ id =>
    have stands := FieldDraft.standsIn_entriesAll (Nat.zero_lt_one) found
    rw [Nat.add_comm 1 id] at stands
    show FieldDraft.StandsIn _ _ _ ([_] ++ _) ([_] ++ _)
    exact stands.prepend rfl rfl (List.forall_mem_singleton.mpr fun above linked => nomatch linked)

theorem exists_preorder {entry : NodeEntry} (listed : draft.entries[id]? = some entry) :
    ∃ field, draft.root.preorder[id]? = some field := by
  obtain ⟨inside, _⟩ := List.getElem?_eq_some_iff.mp listed
  rw [length_entries] at inside
  exact ⟨_, List.getElem?_eq_getElem inside⟩

/-- Each entry shows the field at its place, linked to an entry before it. -/
theorem getElem?_entries (found : draft.root.preorder[id]? = some field) :
    ∃ parent, draft.entries[id]? = some (field.entry parent) ∧
      (parent = none ∧ id = rootId ∨ ∃ above : Nat, above < id ∧ parent = some above) := by
  have sizes := field.size_eq
  have inside : id < draft.root.size := (List.getElem?_eq_some_iff.mp found).1
  rw [← length_entries] at inside
  have listed := List.getElem?_eq_getElem inside
  rcases (draft.standsIn found).position listed with ⟨apart, _⟩ | ⟨_, parent, same, linked⟩ | ⟨apart, _⟩
  · omega
  · exact ⟨parent, listed.trans (congrArg some same), linked⟩
  · omega

/-- Parents stand before their children. -/
theorem parent_lt {entry : NodeEntry} {above : Nat} (listed : draft.entries[id]? = some entry)
    (linked : entry.parent = some above) : above < id := by
  obtain ⟨field, found⟩ := draft.exists_preorder listed
  obtain ⟨parent, same, here⟩ := draft.getElem?_entries found
  obtain rfl := Option.some.inj (listed.symm.trans same)
  rcases here with ⟨rfl, _⟩ | ⟨other, less, rfl⟩
  · cases linked
  · rwa [← Option.some.inj linked]

/-- The children of an entry are those of its field. -/
theorem childIds_entries (found : draft.root.preorder[id]? = some field) :
    Schema.childIds draft.entries id = FieldDraft.starts (id + 1) field.children := by
  rw [← Schema.map_snd_childEntries_of_standsIn (draft.standsIn found), entries_eq,
    Schema.childIds_eq rfl, List.zipIdx_cons]
  unfold Schema.childEntries
  rw [List.filter_cons_of_neg (by simp [FieldDraft.entry])]
  rfl

/-- The children of a field stand at the numbers of its children's entries. -/
theorem forall₂_childIds (found : draft.root.preorder[id]? = some field) :
    List.Forall₂ (fun id child => draft.root.preorder[id]? = some child)
      (Schema.childIds draft.entries id) field.children := by
  rw [draft.childIds_entries found]
  exact (draft.standsIn found).forall₂_starts

/-- What is at or below a field are the entries from its own on. -/
theorem atOrBelow_iff (found : draft.root.preorder[id]? = some field) (other : Nat) :
    AtOrBelow draft.entries id other ↔ id ≤ other ∧ other < id + field.size := by
  have sizes := field.size_eq
  have stands := draft.standsIn found
  constructor
  · intro below
    induction below with
    | self => omega
    | @child other parent entry listed linked _ ih =>
      rcases stands.position listed with ⟨_, apart⟩ | ⟨here, _⟩ | ⟨inside, _⟩
      · have away := apart parent linked
        omega
      · omega
      · omega
  · intro range
    induction other using Nat.strongRecOn with
    | ind other ih =>
      by_cases top : other = id
      · exact top ▸ .self
      · have inside := stands.bounds.2
        rw [rootId, Nat.zero_add] at inside
        have listed := List.getElem?_eq_getElem (Nat.lt_of_lt_of_le range.2 inside)
        rcases stands.position listed with ⟨apart, _⟩ | ⟨here, _⟩ | ⟨_, above, linked, within⟩
        · omega
        · exact absurd here top
        · exact .child listed linked (ih above (draft.parent_lt listed linked) within)

/-- **The entries of a draft are its fields in depth-first order.** -/
theorem listsDepthFirst_entries : ListsDepthFirst draft.entries draft.root where
  length := draft.length_entries
  shows := fun _ _ => draft.getElem?_entries
  children := fun _ _ => draft.forall₂_childIds
  contiguous := fun _ _ => draft.atOrBelow_iff

end SchemaDraft

/-! ### The schema of a draft -/

/-- **A schema shows a field draft** at the node with the given number: the node has its name, its
cardinality and its type, and its children show the children of the draft, in order. -/
inductive Schema.Shows (schema : Schema) : FieldId → FieldDraft → Prop
  | node {id : FieldId} {node : Node} {field : FieldDraft} (found : schema.node? id = some node)
      (name : node.name = field.name) (cardinality : node.cardinality = field.cardinality)
      (type : node.type? = field.type)
      (children : List.Forall₂ (Shows schema) (node.children.map (·.id)) field.children) :
      Shows schema id field

/-- Every entry of an accepted list is a node that shows it. -/
theorem Schema.Describes.exists_node?_of_listed {root entry : NodeEntry} {rest : List NodeEntry}
    {schema : Schema} {id : FieldId} (describes : Describes root rest schema)
    (required : root.cardinality = .required) (listed : (root :: rest)[id]? = some entry) :
    ∃ node, schema.node? id = some node ∧ node.name = entry.name ∧
      node.cardinality = entry.cardinality ∧ node.type? = entry.type ∧
      node.children.map (·.id) = childIds (root :: rest) id := by
  obtain ⟨inside, _⟩ := List.getElem?_eq_some_iff.mp listed
  obtain ⟨node, member, rfl⟩ := List.mem_map.mp (describes.mem_ids_iff.mpr inside)
  have accepted := describes.isAccepted
  have found := accepted.node?_id member
  have children := (describes.derivedAt (describes.parentChain member)).children
  rw [found, Option.map_some, Option.some.injEq] at children
  refine ⟨node, found, ?_⟩
  by_cases top : node.id = rootId
  · obtain rfl : node = schema.root := accepted.eq_of_id_eq member List.mem_cons_self top
    obtain rfl : root = entry := Option.some.inj listed
    exact ⟨describes.name, required.symm, describes.untyped.symm, children⟩
  · obtain rfl := Option.some.inj ((describes.getElem?_id member top).symm.trans listed)
    exact ⟨rfl, rfl, rfl, children⟩

namespace SchemaDraft

variable {draft : SchemaDraft} {schema : Schema}

/-- What describes the entries of a draft shows its fields, from each of them down. -/
theorem shows_of_describes (describes : Schema.Describes (draft.root.entry none)
      (FieldDraft.entriesAll rootId (rootId + 1) draft.root.children) schema) :
    ∀ (field : FieldDraft) {id : Nat}, draft.root.preorder[id]? = some field →
      schema.Shows id field
  | field, id, found => by
    obtain ⟨parent, listed, _⟩ := draft.getElem?_entries found
    obtain ⟨node, known, name, cardinality, type, children⟩ :=
      describes.exists_node?_of_listed rfl listed
    refine .node known name cardinality type ?_
    rw [children]
    refine (forall₂_with_mem (draft.forall₂_childIds found)).imp fun id child here => ?_
    exact shows_of_describes describes child here.2.2
termination_by field => sizeOf field
decreasing_by
  have smaller := List.sizeOf_lt_of_mem here.2.1
  obtain ⟨_, _, _, children⟩ := field
  simp only [FieldDraft.mk.sizeOf_spec]
  dsimp only at smaller
  omega

mutual

/-- The leaves at and below an entry have ascending numbers, all in its subtree. -/
theorem pairwise_lt_of_leavesFrom {id : Nat} {leaves : List Nat} :
    Schema.LeavesFrom draft.entries id leaves → ∀ {field : FieldDraft},
      draft.root.preorder[id]? = some field →
        leaves.Pairwise (· < ·) ∧ ∀ leaf ∈ leaves, id ≤ leaf ∧ leaf < id + field.size
  | .leaf _ _, field, _ => by
    have sizes := field.size_eq
    exact ⟨List.pairwise_singleton _ _, List.forall_mem_singleton.mpr (by omega)⟩
  | .group _ _ below, field, found => by
    have sizes := field.size_eq
    obtain ⟨ascending, inside⟩ := pairwise_lt_of_leavesFromAll below (draft.childIds_entries found)
      (draft.forall₂_childIds found)
    refine ⟨ascending, fun leaf among => ?_⟩
    have within := inside leaf among
    omega

theorem pairwise_lt_of_leavesFromAll {ids leaves : List Nat} :
    Schema.LeavesFromAll draft.entries ids leaves → ∀ {drafts : List FieldDraft} {start : Nat},
      ids = FieldDraft.starts start drafts →
      List.Forall₂ (fun id child => draft.root.preorder[id]? = some child) ids drafts →
        leaves.Pairwise (· < ·) ∧ ∀ leaf ∈ leaves, start ≤ leaf ∧
          leaf < start + (FieldDraft.preorderAll drafts).length
  | .nil, _, _, _, _ => ⟨.nil, List.forall_mem_nil _⟩
  | .cons first rest, field :: fields, start, numbers, .cons here later => by
    obtain ⟨rfl, others⟩ := List.cons.inj numbers
    obtain ⟨ascending, inside⟩ := pairwise_lt_of_leavesFrom first here
    obtain ⟨ascending', inside'⟩ := pairwise_lt_of_leavesFromAll rest others later
    rw [FieldDraft.length_preorderAll_cons, List.pairwise_append, List.forall_mem_append]
    refine ⟨⟨ascending, ascending', ?_⟩, ?_, ?_⟩
    · intro a among b among'
      have left := inside a among
      have right := inside' b among'
      omega
    · intro leaf among
      have within := inside leaf among
      omega
    · intro leaf among
      have within := inside' leaf among
      omega

end

theorem nodeList_eq_ok {entries : List NodeEntry} : draft.nodeList = .ok entries ↔
    draft.root.size ≤ UInt32.size ∧ entries = draft.entries := by
  unfold nodeList
  rw [length_entries]
  by_cases short : draft.root.size ≤ UInt32.size
  · rw [if_pos short, Except.ok.injEq, eq_comm]
    exact (and_iff_right short).symm
  · rw [if_neg short]
    exact iff_of_false nofun fun both => short both.1

/-- **A draft and its schema describe the same tree.** The list of a draft has the fields in
depth-first order; there is one if their numbers have 32 bits. The schema that is made of a draft shows
its fields, from the root down, and lists the leaves in the order of their numbers. It is the schema
that the list describes. -/
theorem nodeList_and_finish (draft : SchemaDraft) :
    ((∃ entries, draft.nodeList = .ok entries) ↔ draft.root.size ≤ UInt32.size) ∧
      (∀ entries, draft.nodeList = .ok entries → ListsDepthFirst entries draft.root) ∧
      ∀ schema, draft.finish = .ok schema →
        schema.Shows rootId draft.root ∧ schema.leafIds.Pairwise (· < ·) ∧
          ∃ entries, draft.nodeList = .ok entries ∧ Schema.ofEntries entries = .ok schema := by
  refine ⟨?_, ?_, ?_⟩
  · constructor
    · rintro ⟨entries, listed⟩
      exact (nodeList_eq_ok.mp listed).1
    · exact fun short => ⟨_, nodeList_eq_ok.mpr ⟨short, rfl⟩⟩
  · rintro entries listed
    rw [(nodeList_eq_ok.mp listed).2]
    exact draft.listsDepthFirst_entries
  · intro schema finished
    obtain ⟨entries, listed, made⟩ := bind_eq_ok.mp finished
    obtain ⟨_, rfl⟩ := nodeList_eq_ok.mp listed
    obtain ⟨root, rest, parts, describes⟩ := Schema.ofEntries_eq_ok.mp made
    obtain ⟨rfl, rfl⟩ := List.cons.inj ((entries_eq draft).symm.trans parts)
    have top : draft.root.preorder[rootId]? = some draft.root := by
      rw [FieldDraft.preorder_eq]
      rfl
    have leaves := describes.derivedLeaves.depthFirst
    exact ⟨shows_of_describes describes draft.root top, (pairwise_lt_of_leavesFrom leaves top).1,
      _, listed, made⟩

/-- The draft of the type of documents and that type describe the same tree. -/
theorem nodeList_and_finish_document :
    Sample.documentDraft.finish = .ok Sample.documentType ∧
      ListsDepthFirst Sample.documentDraft.entries Sample.documentDraft.root ∧
      Sample.documentType.Shows rootId Sample.documentDraft.root ∧
      Sample.documentType.leafIds.Pairwise (· < ·) :=
  have finished : Sample.documentDraft.finish = .ok Sample.documentType := rfl
  have both := nodeList_and_finish Sample.documentDraft
  ⟨finished, both.2.1 _ rfl, (both.2.2 _ finished).1, (both.2.2 _ finished).2.1⟩

end SchemaDraft

end NestedColumns
