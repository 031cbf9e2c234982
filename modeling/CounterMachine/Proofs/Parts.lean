import CounterMachine.Proofs.Alive
set_option autoImplicit false

/-!
# Parts of a branch

Every node of a branch is the start of a part of it. The leaves of a part stand together, and they are all
nodes of the sequence that are below the start of the part. So what was derived from one node is a block of
the sequence, however much of it and of its neighbours is expanded.
-/

namespace CounterMachine

namespace Branch

/-- A branch that starts at a node of another branch. -/
inductive Part (part : Branch) : Branch → Prop where
  | whole : Part part part
  | child {id : Nat} {instruction : Instruction} {children : List Branch} {child : Branch}
      (member : child ∈ children) (inside : Part part child) :
      Part part (.node id instruction children)

variable {forest : Forest} {branch part : Branch}

/-- Every node below the first one is a child of an expanded node. -/
theorem exists_parent_part {id : Nat} (member : id ∈ branch.inside) :
    ∃ place instruction children, (Branch.node place instruction children).Part branch ∧
      ∃ child ∈ children, child.id = id := by
  induction branch using Branch.induction with
  | leaf place instruction => simp [inside] at member
  | node place instruction children ih =>
      rw [inside, List.mem_flatMap] at member
      obtain ⟨child, inChildren, member⟩ := member
      rw [ids_eq, List.mem_cons] at member
      rcases member with rfl | member
      · exact ⟨place, instruction, children, .whole, child, inChildren, rfl⟩
      · obtain ⟨inner, innerInstruction, siblings, inside, found⟩ := ih child inChildren member
        exact ⟨inner, innerInstruction, siblings, .child inChildren inside, found⟩

theorem Part.trans {whole : Branch} (first : part.Part branch) (second : branch.Part whole) :
    part.Part whole := by
  induction second with
  | whole => exact first
  | child member _ ih => exact .child member ih

theorem Part.held (within : part.Part branch) (held : branch.In forest) : part.In forest := by
  induction within with
  | whole => exact held
  | child member _ ih =>
      cases held with
      | node _ _ inner => exact ih (inner _ member)

theorem Part.id_mem (within : part.Part branch) : part.id ∈ branch.ids := by
  induction within with
  | whole => exact part.id_mem_ids
  | child member _ ih =>
      rw [ids_node, List.mem_cons]
      exact .inr (List.mem_flatMap_of_mem member ih)

theorem leaves_infix_flatMap {branches : List Branch} (member : branch ∈ branches) :
    branch.leaves <:+: branches.flatMap leaves := by
  rw [List.flatMap_def]
  exact List.infix_of_mem_flatten (List.mem_map_of_mem member)

/-- The leaves of a part stand together. -/
theorem Part.leaves_infix (within : part.Part branch) : part.leaves <:+: branch.leaves := by
  induction within with
  | whole => exact List.infix_rfl
  | child member _ ih =>
      rw [leaves_node]
      exact ih.trans (leaves_infix_flatMap member)

/-- A leaf below a node is a leaf of the part that starts at the node. -/
theorem Part.mem_leaves (within : part.Part branch) (held : branch.In forest)
    (ordered : forest.Ordered) (distinct : branch.ids.Nodup) {leaf : Nat}
    (member : leaf ∈ branch.leaves) (above : forest.Above part.id leaf) : leaf ∈ part.leaves := by
  induction within with
  | whole => exact member
  | @child id instruction children child inChildren inside ih =>
      have deeper : forest.Above id part.id :=
        held.above ordered (Part.child inChildren inside).id_mem
      cases held with
      | @node _ origin _ found linked inner =>
          rw [ids_node, List.nodup_cons] at distinct
          rw [leaves_node, List.mem_flatMap] at member
          obtain ⟨other, inSiblings, member⟩ := member
          -- The first node of the part belongs to the sibling that has the leaf.
          have inOther : part.id ∈ other.ids := by
            rcases above with same | above
            · exact same ▸ other.leaves_subset_ids member
            · rcases (inner other inSiblings).ancestors_leaf ordered member above with outside | inner
              · obtain ⟨ordinal, here⟩ := List.mem_iff_getElem?.mp inSiblings
                rw [ordered.ancestors_child (linked here) rfl, List.mem_cons] at outside
                rcases outside with same | higher
                · exact (distinct.1 (same ▸ List.mem_flatMap_of_mem inChildren inside.id_mem)).elim
                · have upper := Forest.lt_of_mem_ancestors higher
                  rcases deeper with same | lower
                  · exact (Nat.lt_irrefl _ (same ▸ upper)).elim
                  · exact (Nat.lt_asymm upper (Forest.lt_of_mem_ancestors lower)).elim
              · exact other.ids_perm.mem_iff.mpr (List.mem_append_left _ inner)
          obtain rfl := eq_of_mem_ids distinct.2 inChildren inSiblings inside.id_mem inOther
          exact ih (inner _ inChildren) ((List.nodup_flatMap.mp distinct.2).1 _ inChildren) member

theorem exists_part {id : Nat} (member : id ∈ branch.ids) :
    ∃ part : Branch, part.Part branch ∧ part.id = id := by
  rw [ids_eq, List.mem_cons] at member
  rcases member with rfl | member
  · exact ⟨branch, .whole, rfl⟩
  · obtain ⟨place, instruction, children, within, child, inChildren, same⟩ := exists_parent_part member
    exact ⟨child, (Part.child inChildren .whole).trans within, same⟩

end Branch

namespace Spread

variable {forest : Forest} {branches : List Branch} {sequence : List Nat}

/-- The leaves of the part that starts at a node are the nodes of the sequence that are below it. -/
theorem mem_part_leaves (spread : Spread forest branches sequence) {branch part : Branch}
    (inBranches : branch ∈ branches) (within : part.Part branch) {leaf : Nat} (member : leaf ∈ sequence)
    (above : forest.Above part.id leaf) : leaf ∈ part.leaves := by
  rw [spread.leaves, List.mem_flatMap] at member
  obtain ⟨other, alsoInBranches, member⟩ := member
  have inOther : part.id ∈ other.ids := by
    rcases above with same | above
    · exact same ▸ other.leaves_subset_ids member
    · exact other.ids_perm.mem_iff.mpr
        (List.mem_append_left _ (spread.mem_inner alsoInBranches member above))
  obtain rfl :=
    Branch.eq_of_mem_ids spread.distinct inBranches alsoInBranches within.id_mem inOther
  exact within.mem_leaves (spread.held branch inBranches) spread.ordered
    ((List.nodup_flatMap.mp spread.distinct).1 branch inBranches) member above

/-- All that was derived from one node stands together. -/
theorem together (spread : Spread forest branches sequence) {leaf parent : Nat} (member : leaf ∈ sequence)
    (above : parent ∈ forest.ancestors leaf) :
    ∃ before block after, sequence = before ++ block ++ after ∧
      (∀ id ∈ block, parent ∈ forest.ancestors id) ∧
      ∀ id ∈ before ++ after, parent ∉ forest.ancestors id := by
  have nodup := spread.nodup
  have inSequence := member
  rw [spread.leaves, List.mem_flatMap] at member
  obtain ⟨branch, inBranches, member⟩ := member
  have inner := spread.mem_inner inBranches member above
  obtain ⟨part, within, rfl⟩ := Branch.exists_part
    (branch.ids_perm.mem_iff.mpr (List.mem_append_left _ inner))
  obtain ⟨before, after, segment⟩ :=
    within.leaves_infix.trans (Branch.leaves_infix_flatMap inBranches)
  rw [← spread.leaves] at segment
  refine ⟨before, part.leaves, after, segment.symm, ?_, ?_⟩
  · intro id inPart
    have held := within.held (spread.held branch inBranches)
    rcases held.above spread.ordered (part.leaves_subset_ids inPart) with same | below
    · -- The start of the part is expanded, so it is not one of the leaves.
      have distinct := (List.nodup_flatMap.mp spread.distinct).1 branch inBranches
      rw [branch.ids_perm.nodup_iff, List.nodup_append] at distinct
      exact (distinct.2.2 _ inner _ (within.leaves_infix.subset inPart) same).elim
    · exact below
  · intro id outside below
    have known : id ∈ sequence := by
      rw [← segment]
      simp only [List.mem_append] at outside ⊢
      tauto
    have inPart := spread.mem_part_leaves inBranches within known (.inr below)
    rw [← segment, List.append_assoc, List.nodup_append, List.nodup_append] at nodup
    rcases List.mem_append.mp outside with inBefore | inAfter
    · exact nodup.2.2 id inBefore id (List.mem_append_left _ inPart) rfl
    · exact nodup.2.1.2.2 id inPart id inAfter rfl

end Spread

end CounterMachine
