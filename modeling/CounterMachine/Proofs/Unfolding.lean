import CounterMachine.Proofs.Actions
set_option autoImplicit false

/-!
# Unfolding from left to right

The code of a routine arises from its definition by unfolding: reading from left to right, an instruction is
kept as it is or replaced by its block, with names that occur nowhere else at that time. The order in which
the routine was expanded, and what was collapsed again, does not matter.
-/

namespace CounterMachine

/-- Instructions that are done and instructions that are pending become the final code. -/
inductive Unfolding (registry : Registry) : (before pending final : List Instruction) → Prop where
  | finished {before : List Instruction} : Unfolding registry before [] before
  | keep {before rest final : List Instruction} {instruction : Instruction}
      (others : Unfolding registry (before ++ [instruction]) rest final) :
      Unfolding registry before (instruction :: rest) final
  | unfold {before rest final body : List Instruction} {instruction : Instruction} {draft : Draft}
      (synthetic : instruction.isBasic = false)
      (stands : instruction.operation.StandsFor registry draft body)
      (avoids : draft.Avoids (namesIn (before ++ instruction :: rest)))
      (others : Unfolding registry before (labelFirst instruction.label body ++ rest) final) :
      Unfolding registry before (instruction :: rest) final

/-- What holds of the whole code and is kept by one unfolding holds of the final code. -/
theorem Unfolding.preserves {registry : Registry} {P : List Instruction → Prop}
    (unfold : ∀ {before rest body : List Instruction} {instruction : Instruction} {draft : Draft},
      instruction.operation.StandsFor registry draft body →
      draft.Avoids (namesIn (before ++ instruction :: rest)) → P (before ++ instruction :: rest) →
      P (before ++ (labelFirst instruction.label body ++ rest)))
    {before pending final : List Instruction} (unfolding : Unfolding registry before pending final)
    (initial : P (before ++ pending)) : P final := by
  induction unfolding with
  | finished => simpa using initial
  | keep _ ih => exact ih (by simpa using initial)
  | unfold _ stands avoids _ ih => exact ih (unfold stands avoids initial)

theorem Unfolding.done_subset {registry : Registry} {before pending final : List Instruction}
    (unfolding : Unfolding registry before pending final) : before ⊆ final := by
  induction unfolding with
  | finished => exact List.Subset.refl _
  | keep _ ih => exact List.Subset.trans (List.subset_append_left _ _) ih
  | unfold _ _ _ _ ih => exact ih

theorem namesIn_unfolded {registry : Registry} {before rest body : List Instruction}
    {instruction : Instruction} {draft : Draft}
    (stands : instruction.operation.StandsFor registry draft body) (wellFormed : registry.WellFormed)
    (named : ∀ label ∈ draft.labels, label.isNamed = true) :
    namesIn (before ++ (labelFirst instruction.label body ++ rest)) =
      namesIn (before ++ instruction :: rest) ∪ { name | name ∈ draft.names } := by
  rw [namesIn_append, namesIn_append, Instruction.names_unfolded stands wellFormed named, namesIn_append,
    namesIn_cons]
  ext name
  simp only [Set.mem_union]
  tauto

theorem Drawn.unfolding {registry : Registry} {trees : List Derivation} {draft : Draft}
    (drawn : Drawn registry trees draft) (wellFormed : registry.WellFormed)
    {before : List Instruction}
    (avoids : draft.Avoids (namesIn (before ++ trees.map Derivation.instruction))) :
    Unfolding registry before (trees.map Derivation.instruction)
      (before ++ trees.flatMap Derivation.code) := by
  induction drawn generalizing before with
  | nil =>
      rw [List.map_nil, List.flatMap_nil, List.append_nil]
      exact .finished
  | leaf _ ih =>
      rw [List.map_cons, List.flatMap_cons, Derivation.code_leaf, Derivation.instruction,
        ← List.append_assoc]
      rw [List.map_cons, Derivation.instruction, List.append_cons] at avoids
      exact .keep (ih avoids)
  | @node instruction children rest _ _ body own draft synthetic _ stands complete _ ih =>
      obtain ⟨first, later⟩ := avoids.split
      rw [List.map_append, complete, List.flatMap_append] at ih
      rw [List.map_cons, Derivation.instruction] at first later ⊢
      rw [List.flatMap_cons, Derivation.code_node]
      refine .unfold synthetic stands first (ih (later.mono ?_))
      intro name _ occurs
      rwa [namesIn_unfolded stands wellFormed first.named] at occurs

/-- Whatever was done to a routine, its code is an unfolding of its definition. -/
theorem Frontier.unfolding {registry : Registry} {definition : Definition} {routine : Routine}
    {branches : List Branch} {draft : Draft}
    (frontier : Frontier registry definition routine branches draft)
    (wellFormed : registry.WellFormed) :
    Unfolding registry [] definition.body routine.instructions := by
  have avoids := frontier.avoids wellFormed
  rw [← frontier.map_instruction] at avoids ⊢
  rw [frontier.instructions]
  exact frontier.drawn.unfolding wellFormed avoids

/-! ## Labels and calls of unfolded code -/

section Kept

variable {registry : Registry} {before rest body : List Instruction} {instruction : Instruction}
  {draft : Draft}

theorem mem_unfolded {inner : Instruction}
    (member : inner ∈ before ++ (labelFirst instruction.label body ++ rest)) :
    inner ∈ before ++ instruction :: rest ∨ inner ∈ labelFirst instruction.label body := by
  simp only [List.mem_append, List.mem_cons] at member ⊢
  tauto

theorem Resolved.unfold (stands : instruction.operation.StandsFor registry draft body)
    (wellFormed : registry.WellFormed)
    (avoids : draft.Avoids (namesIn (before ++ instruction :: rest)))
    (resolved : Resolved (before ++ instruction :: rest)) :
    Resolved (before ++ (labelFirst instruction.label body ++ rest)) := by
  have perm := Instruction.attached_unfolded stands wellFormed avoids.named
  -- The labels of the block come on top of those that were attached before.
  have attachedPerm : (attached (before ++ (labelFirst instruction.label body ++ rest))).Perm
      (draft.labels ++ attached (before ++ instruction :: rest)) := by
    simp only [attached_append, attached_cons]
    refine (perm.append_right _).append_left _ |>.trans ?_
    rw [List.append_assoc, ← List.append_assoc]
    refine List.perm_append_comm_assoc _ _ _ |>.trans ?_
    simp
  have kept : ∀ {label}, label ∈ attached (before ++ instruction :: rest) →
      label ∈ attached (before ++ (labelFirst instruction.label body ++ rest)) := by
    intro label member
    exact attachedPerm.mem_iff.mpr (List.mem_append_right _ member)
  constructor
  · rw [attachedPerm.nodup_iff]
    refine avoids.labels.append resolved.unique ?_
    intro label drawn member
    exact avoids.unused (.label label) (Draft.label_mem_names.mpr drawn) (attached_subset_names member)
  · intro inner member
    rcases mem_unfolded member with outside | inBlock
    · exact resolved.inner inner outside
    · obtain ⟨first, others, rfl⟩ := stands.starts
      rcases List.mem_cons.mp inBlock with rfl | inOthers
      · exact resolved.inner instruction (by simp)
      · exact stands.label_ne_exit wellFormed avoids.named inner (List.mem_cons_of_mem _ inOthers)
  · intro inner member target jumps named
    rcases mem_unfolded member with outside | inBlock
    · exact kept (resolved.defined outside jumps named)
    · obtain ⟨original, inBody, jumps⟩ :=
        (exists_mem_labelFirst _ _ fun operation => operation.target? = some target).mp
          ⟨inner, inBlock, jumps⟩
      have nonempty : target ≠ .empty := by
        rintro rfl
        cases named
      rcases stands.target_origin avoids.named original inBody target jumps nonempty with drawn | own
      · exact attachedPerm.mem_iff.mpr (List.mem_append_left _ drawn)
      · exact kept (resolved.defined (by simp) own named)

theorem CallsFit.unfold (stands : instruction.operation.StandsFor registry draft body)
    (wellFormed : registry.WellFormed) (fit : CallsFit registry (before ++ instruction :: rest)) :
    CallsFit registry (before ++ (labelFirst instruction.label body ++ rest)) := by
  intro inner member call calls
  rcases mem_unfolded member with outside | inBlock
  · exact fit inner outside call calls
  · obtain ⟨original, inBody, calls⟩ :=
      (exists_mem_labelFirst _ _ fun operation => operation.call? = some call).mp
        ⟨inner, inBlock, calls⟩
    have own : ∀ {call}, instruction.operation.call? = some call → call.Fits registry := by
      intro outer composed
      exact fit instruction (by simp) outer composed
    exact stands.calls_fit (fun _ found => (wellFormed found).calls) own original inBody call calls

end Kept

/-- Labels and calls stay in order whatever is done to a routine. -/
theorem Frontier.runnable {registry : Registry} {definition : Definition} {routine : Routine}
    {branches : List Branch} {draft : Draft}
    (frontier : Frontier registry definition routine branches draft)
    (wellFormed : registry.WellFormed) (resolved : Resolved definition.body)
    (fit : CallsFit registry definition.body) : routine.Runnable registry where
  present := frontier.present
  resolved := (frontier.unfolding wellFormed).preserves
    (fun stands avoids => Resolved.unfold stands wellFormed avoids) resolved
  calls := (frontier.unfolding wellFormed).preserves (P := fun code => CallsFit registry code)
    (fun stands _ => CallsFit.unfold stands wellFormed) fit
  positions := frontier.labels

end CounterMachine
