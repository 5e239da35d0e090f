/-
What the machine means.

The machine of a projection is a table that is built leaf by leaf. The table says the same as three
sentences about the schema:

* up to the level that a field shares with the next selected one, reading goes on to that field;
* above it, reading goes back to the first selected field at or below the repeated field that owns
  the level;
* there is an entry for each level of a field, and levels above them count as the greatest.
-/

import NestedColumns.Proofs.Machine.Targets

namespace NestedColumns

namespace Schema

/-- A field is `owner` or lies below it. -/
def IsWithin (schema : Schema) (field owner : FieldId) : Prop :=
  field = owner ∨ schema.isAncestor? owner field = some true

theorem IsAccepted.isWithin_iff {schema : Schema} (accepted : schema.IsAccepted) {a b : Node}
    (first : a ∈ schema.nodes) (second : b ∈ schema.nodes) (field : a.path.getLast? = some a.label)
    {owner : Label} (onPath : owner ∈ b.path) :
    schema.IsWithin a.id owner.id ↔ owner.id ∈ Path.ids a.path := by
  have notRoot := accepted.id_ne_rootId second onPath
  unfold IsWithin isAncestor?
  by_cases same : owner.id = a.id
  · have inside : a.id ∈ Path.ids a.path := List.mem_map_of_mem (List.mem_of_getLast? field)
    rw [same]
    exact iff_of_true (.inl rfl) inside
  · rw [if_neg same, if_neg notRoot, ancestry?, accepted.node?_id first, or_iff_right (Ne.symm same)]
    simp [Node.ancestry]

end Schema

namespace Machine

/-- The repetition level that a field shares with the one that is selected after it, if any. -/
def IsBarrier (schema : Schema) (field : FieldId) : Option FieldId → Level → Prop
  | some next, level => schema.commonRepetition? field next = some level
  | none, level => level = 0

/-- The `j`-th of the fields is the first that is `owner` or lies below it. -/
structure IsFirstWithin (schema : Schema) (fields : List FieldId) (owner : FieldId) (j : Nat)
    (first : FieldId) : Prop where
  found : fields[j]? = some first
  within : schema.IsWithin first owner
  before : ∀ k < j, ∀ earlier, fields[k]? = some earlier → ¬ schema.IsWithin earlier owner

/-- What the machine should do after a row of the `i`-th field of a projection when the next row of
that field has the given level, which is one of the levels of the field. -/
structure IsTarget (schema : Schema) (fields : List FieldId) (i : Nat) (field : FieldId)
    (barrier level : Level) (target : Option FieldId) : Prop where
  onward : level ≤ barrier → target = fields[i + 1]?
  back : barrier < level → ∃ owner j first,
    schema.repeatedAncestorAt? field level = some (some owner) ∧ j ≤ i ∧
      IsFirstWithin schema fields owner j first ∧ target = some first

/-- The `i`-th field of a projection has a target for each of its levels and no entry for others,
which count as the greatest. -/
def Follows (machine : Machine) (schema : Schema) (fields : List FieldId) (i : Nat)
    (field : FieldId) : Prop :=
  ∃ greatest barrier, schema.maxRepetition? field = some greatest ∧
    IsBarrier schema field fields[i + 1]? barrier ∧
    (∀ level ≤ greatest, ∃ target, machine.transition? field level = some target ∧
      machine.next? field level = target ∧
      IsTarget schema fields i field barrier level target) ∧
    (∀ level, greatest < level → machine.transition? field level = none ∧
      machine.next? field level = machine.next? field greatest)

section Selected

variable {schema : Schema} {before after : List Node} {node : Node}

theorem isBarrier_barrier (accepted : schema.IsAccepted)
    (members : ∀ x ∈ before ++ node :: after, x ∈ schema.nodes) :
    IsBarrier schema node.id (after.head?.map (·.id)) (barrier node after.head?) := by
  cases after with
  | nil => rfl
  | cons next after =>
    exact accepted.commonRepetition?_id (members node (by simp)) (members next (by simp))

/-- The target of a level beyond the barrier is the first leaf within the owner of the level. -/
theorem exists_isFirstWithin (accepted : schema.IsAccepted)
    (members : ∀ x ∈ before ++ node :: after, x ∈ schema.nodes)
    (fields : ∀ x ∈ before ++ node :: after, x.path.getLast? = some x.label)
    (least : (before ++ [node]).Triplewise Node.LeastLevel)
    (sharing : ∀ x ∈ before, x.commonRepetition node ≤ node.maxRepetition) {level : Level}
    (above : barrier node after.head? < level) (reached : level ≤ node.maxRepetition) :
    ∃ owner j first, schema.repeatedAncestorAt? node.id level = some (some owner) ∧
      j ≤ before.length ∧
      IsFirstWithin schema ((before ++ node :: after).map (·.id)) owner j first ∧
      targetAt before node after.head? level = some first := by
  have here : node ∈ schema.nodes := members node (by simp)
  obtain ⟨earlier, first, later, parts, target, short, shares⟩ :=
    exists_first_of_barrier_lt least sharing above reached
  have positive : 0 < level := Nat.zero_lt_of_lt above
  obtain ⟨index, found⟩ := Path.exists_ownerIndex positive reached
  obtain ⟨owner, atIndex, _⟩ := Path.ownerIndex_eq_some_iff.mp found
  have owns : node.repeatedAncestorAt? level = some owner := by
    unfold Node.repeatedAncestorAt?
    rw [found, Option.bind_some, atIndex]
  have within : ∀ x ∈ before ++ node :: after,
      schema.IsWithin x.id owner.id ↔ level ≤ x.commonRepetition node := by
    intro x member
    rw [accepted.isWithin_iff (members x member) here (fields x member)
      (List.mem_of_getElem? atIndex)]
    exact accepted.mem_ids_owner_iff here (members x member) owns
  have whole : before ++ node :: after = earlier ++ first :: (later ++ after) := by
    rw [← List.singleton_append, ← List.append_assoc, parts]
    simp
  refine ⟨owner.id, earlier.length, first.id, ?_, ?_, ⟨?_, ?_, ?_⟩, target⟩
  · rw [Schema.repeatedAncestorAt?, if_neg (Nat.ne_of_gt positive), accepted.node?_id here,
      Option.map_some, owns, Option.map_some]
  · have lengths := congrArg List.length parts
    simp only [List.length_append, List.length_cons, List.length_nil] at lengths
    omega
  · rw [whole]
    simp
  · exact (within first (by rw [whole]; simp)).mpr shares
  · intro k less id atK inside
    rw [whole, List.map_append, List.getElem?_append_left (by simpa using less),
      List.getElem?_map] at atK
    obtain ⟨x, atX, rfl⟩ := Option.map_eq_some_iff.mp atK
    have member : x ∈ earlier := List.mem_of_getElem? atX
    have reaches := (within x (by rw [whole]; simp [member])).mp inside
    exact absurd (short x member) (Nat.not_lt_of_le reaches)

end Selected

/-- **The machine equals its declarative meaning**, for every field of every projection. -/
theorem follows_of_ofProjection {schema : Schema} (accepted : schema.IsAccepted)
    {projection : Projection} (own : projection.IsOf schema) :
    ∃ machine, ofProjection schema projection = .ok machine ∧
      ∀ i field, projection.fields[i]? = some field →
        machine.Follows schema projection.fields i field := by
  refine ⟨_, ofProjection_eq accepted own, fun i field found => ?_⟩
  have among : ∀ x ∈ projection.selected schema, x ∈ schema.nodes :=
    fun x member => Projection.mem_nodes_of_mem_selected member
  obtain ⟨distinct, least, within⟩ :=
    isOrder_of_sublist accepted (projection.selected_sublist schema)
  have labels : ∀ x ∈ projection.selected schema, x.path.getLast? = some x.label :=
    fun x member => Schema.getLast?_path_of_mem_leaves (List.mem_of_mem_filter member)
  rw [own.fields_eq accepted] at found ⊢
  generalize projection.selected schema = nodes at found among distinct least within labels ⊢
  rw [List.getElem?_map] at found
  obtain ⟨node, atI, rfl⟩ := Option.map_eq_some_iff.mp found
  obtain ⟨before, after, rfl, rfl⟩ := exists_parts_of_getElem? atI
  have next : ((before ++ node :: after).map (·.id))[before.length + 1]? =
      after.head?.map (·.id) := by
    rw [List.getElem?_map, List.getElem?_append_right (Nat.le_add_right _ 1),
      Nat.add_sub_cancel_left, List.getElem?_cons_succ, List.head?_eq_getElem?]
  refine ⟨node.maxRepetition, barrier node after.head?, ?_, ?_, ?_, ?_⟩
  · unfold Schema.maxRepetition?
    rw [accepted.node?_id (among node (by simp)), Option.map_some]
  · rw [next]
    exact isBarrier_barrier accepted among
  · intro level reached
    refine ⟨targetAt before node after.head? level, ?_, ?_, ?_, ?_⟩
    · rw [transition?_eq distinct, if_pos reached]
    · rw [next?_eq distinct, Nat.min_eq_left reached]
    · intro shared
      rw [next, targetAt, if_pos shared]
    · intro above
      refine exists_isFirstWithin accepted among labels ?_ ?_ above reached
      · exact triplewise_sublist (by simp) least
      · exact fun x member => within x (by simp [member]) node (by simp)
  · intro level above
    refine ⟨?_, ?_⟩
    · rw [transition?_eq distinct, if_neg (Nat.not_le_of_lt above)]
    · rw [next?_eq distinct, next?_eq distinct, Nat.min_self,
        Nat.min_eq_right (Nat.le_of_lt above)]

theorem follows_codes_and_countries :
    Sample.documentType.IsAccepted ∧ Projection.IsOf Sample.documentType ⟨[7, 8]⟩ ∧
      ∃ machine, ofProjection Sample.documentType ⟨[7, 8]⟩ = .ok machine ∧
        ∀ i field, [7, 8][i]? = some field →
          machine.Follows Sample.documentType [7, 8] i field := by
  have made : Projection.ofIds Sample.documentType [8, 7] = .ok ⟨[7, 8]⟩ :=
    (Projection.ofIds_eq_ok Sample.documentType_isAccepted).mpr (by decide +kernel)
  have own := Projection.IsOf.ofIds made
  exact ⟨Sample.documentType_isAccepted, own,
    follows_of_ofProjection Sample.documentType_isAccepted own⟩

end Machine

end NestedColumns
