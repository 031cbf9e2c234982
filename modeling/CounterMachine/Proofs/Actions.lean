import CounterMachine.Proofs.Collapsing
set_option autoImplicit false

/-!
# Actions on a routine

A routine can be expanded, collapsed, run, reset and restored, in any order. An action that fails changes
nothing. After any number of actions the sequence is the frontier of the source instructions.
-/

namespace CounterMachine

/-- What can be done to a routine. Fuel is for the steps of a run and of the calls in it. -/
inductive Action where
  | expand (rounds : Nat)
  | expandSingle (key : String) (rounds : Nat)
  | collapse
  | collapseSingle (key : String)
  | collapseAll
  | start (arguments : List UInt64)
  | step (fuel : Nat)
  | run (fuel : Nat) (arguments : List UInt64)
  | reset
  | restoreVars

namespace Routine

/-- The routine after an action, the old one if the action fails. -/
def act (registry : Registry) (routine : Routine) : Action → Routine
  | .expand rounds => (routine.expand registry rounds).toOption.getD routine
  | .expandSingle key rounds => (routine.expandSingle registry key rounds).toOption.getD routine
  | .collapse => routine.collapse
  | .collapseSingle key => (routine.collapseSingle key).toOption.getD routine
  | .collapseAll => routine.collapseAll
  | .start arguments => routine.start arguments
  | .step fuel => (routine.step registry fuel).1
  | .run fuel arguments => (routine.run registry fuel arguments).1
  | .reset => routine.reset
  | .restoreVars => routine.restoreVars

/-- The routine after some actions. -/
def after (registry : Registry) (actions : List Action) (routine : Routine) : Routine :=
  actions.foldl (act registry) routine

/-- What holds of a routine and of every routine that an attempt yields, holds after the attempt. -/
theorem attempt_keeps {P : Routine → Prop} {routine : Routine} {attempted : Except Failure Routine}
    (old : P routine) (success : ∀ next, attempted = .ok next → P next) :
    P (attempted.toOption.getD routine) := by
  cases attempted with
  | error failure => exact old
  | ok next => exact success next rfl

theorem expandSingle_ok {registry : Registry} {routine next : Routine} {key : String} {rounds : Nat}
    (expanded : routine.expandSingle registry key rounds = .ok next) :
    ∃ position, routine.find key = .ok position ∧
      routine.expandSelected registry rounds (· = position) = .ok next := by
  cases found : routine.find key with
  | error failure =>
      rw [expandSingle, found] at expanded
      cases expanded
  | ok position =>
      rw [expandSingle, found] at expanded
      exact ⟨position, rfl, expanded⟩

/-- What survives steps, expansions and collapses survives every action. -/
theorem act_keeps {P : Routine → Prop} {registry : Registry} {routine : Routine} (old : P routine)
    (sameCode : ∀ {before after : Routine}, P before → before.SameCode after → P after)
    (expandSelected : ∀ {before after : Routine} {rounds : Nat} {selected : Nat → Bool}, P before →
      before.expandSelected registry rounds selected = .ok after → P after)
    (collapse : ∀ {before : Routine}, P before → P before.collapse)
    (collapseSingle : ∀ {before after : Routine} {key : String}, P before →
      before.collapseSingle key = .ok after → P after)
    (action : Action) : P (routine.act registry action) := by
  cases action with
  | expand rounds => exact attempt_keeps old fun next expanded => expandSelected old expanded
  | expandSingle key rounds =>
      apply attempt_keeps old
      intro next expanded
      obtain ⟨position, _, expanded⟩ := expandSingle_ok expanded
      exact expandSelected old expanded
  | collapse => exact collapse old
  | collapseSingle key => exact attempt_keeps old fun next collapsed => collapseSingle old collapsed
  | collapseAll =>
      simp only [act, collapseAll]
      generalize routine.maxDepth = rounds
      induction rounds with
      | zero => exact old
      | succ rounds ih => exact collapse ih
  | start arguments => exact sameCode old (.start routine arguments)
  | step fuel => exact sameCode old (.stepWith registry (replyOf (finish registry fuel)) routine)
  | run fuel arguments => exact sameCode old (.run registry fuel routine arguments)
  | reset => exact sameCode old (.reset routine)
  | restoreVars => exact sameCode old (.restoreVars routine)

end Routine

namespace Frontier

variable {registry : Registry} {definition : Definition} {routine : Routine}
  {branches : List Branch} {draft : Draft}

theorem act (frontier : Frontier registry definition routine branches draft) (action : Action) :
    ∃ branches draft, Frontier registry definition (routine.act registry action) branches draft := by
  apply Routine.act_keeps (P := fun next => ∃ branches draft, Frontier registry definition next branches draft)
    ⟨branches, draft, frontier⟩
  · rintro before after ⟨branches, draft, frontier⟩ same
    exact ⟨branches, draft, frontier.sameCode same⟩
  · rintro before after rounds selected ⟨branches, draft, frontier⟩ expanded
    exact frontier.expandSelected expanded
  · rintro before ⟨branches, draft, frontier⟩
    exact frontier.collapse
  · rintro before after key ⟨branches, draft, frontier⟩ collapsed
    exact frontier.collapseSingle collapsed

theorem after (frontier : Frontier registry definition routine branches draft) (actions : List Action) :
    ∃ branches draft, Frontier registry definition (routine.after registry actions) branches draft := by
  induction actions generalizing routine branches draft with
  | nil => exact ⟨branches, draft, frontier⟩
  | cons action rest ih =>
      obtain ⟨next, drawn, frontier⟩ := frontier.act action
      exact ih frontier

theorem not_ancestor (frontier : Frontier registry definition routine branches draft)
    {id other : Nat} (member : id ∈ routine.sequence) (otherMember : other ∈ routine.sequence) :
    other ∉ routine.forest.ancestors id := by
  intro above
  rw [frontier.sequence] at member otherMember
  obtain ⟨branch, inBranches, member⟩ := List.mem_flatMap.mp member
  have inner := frontier.spread.mem_inner inBranches member above
  have distinct := frontier.distinct
  rw [(Branch.flatMap_ids_perm branches).nodup_iff, List.nodup_append] at distinct
  exact distinct.2.2 other (List.mem_flatMap_of_mem inBranches inner) other otherMember rfl

end Frontier

/-- After any actions, the sequence of a routine reads off the source instructions in order: it consists of
the leaves of one branch for each of them, every inner node of a branch has exactly the children that one
round of expansion gave it, and no node is in the sequence twice or together with an ancestor. Collapse
therefore lowers the depth, and repeated collapse restores the definition. -/
theorem Routine.sequence_covers_source (definition : Definition) (registry : Registry)
    (actions : List Action) :
    let routine := (Routine.ofDefinition definition).after registry actions
    (∀ id ∈ routine.sequence, id < routine.forest.size) ∧
    (∀ id node, routine.forest.get? id = some node →
      (∀ parent, node.parent = some parent → parent < id ∧ parent < routine.forest.size) ∧
      node.depth = (routine.forest.ancestors id).length) ∧
    (∃ branches : List Branch,
      (∀ position instruction, definition.body[position]? = some instruction →
        routine.forest.get? position = some (.root position instruction)) ∧
      branches.map Branch.id = List.range definition.body.length ∧
      (∀ branch ∈ branches, branch.In routine.forest ∧ branch.derivation.Unfolded registry) ∧
      (branches.flatMap Branch.ids).Nodup ∧
      routine.sequence = branches.flatMap Branch.leaves) ∧
    routine.sequence.Nodup ∧
    (∀ id ∈ routine.sequence, ∀ other ∈ routine.sequence,
      other ∉ routine.forest.ancestors id) ∧
    (routine.maxDepth ≠ 0 → routine.collapse.maxDepth < routine.maxDepth) ∧
    routine.collapseAll.maxDepth = 0 ∧
    routine.collapseAll.instructions = definition.body ∧
    routine.collapseAll.state.labels = (Routine.ofDefinition definition).state.labels ∧
    routine.collapseAll.vars = (Routine.ofDefinition definition).vars := by
  intro routine
  have source := Frontier.ofDefinition registry definition
  obtain ⟨branches, draft, frontier⟩ := source.after actions
  obtain ⟨restBranches, restDraft, restored⟩ := frontier.collapseAll
  have flat := frontier.collapseAll_maxDepth
  refine ⟨?_, ?_, ⟨branches, fun _ _ => frontier.roots, frontier.covered, ?_, frontier.distinct,
    frontier.sequence⟩, frontier.sequence_nodup, ?_, ?_, flat,
    restored.instructions_of_flat flat, restored.labels_of_flat flat, ?_⟩
  · intro id member
    obtain ⟨node, found⟩ := frontier.present id member
    exact Forest.lt_size_of_get? found
  · intro id node found
    refine ⟨?_, frontier.ordered.depth_eq found⟩
    intro parent derived
    have below := (frontier.ordered.child found derived).1
    exact ⟨below, Nat.lt_trans below (Forest.lt_size_of_get? found)⟩
  · intro branch member
    exact ⟨frontier.held branch member, frontier.unfolded member⟩
  · intro id member other otherMember
    exact frontier.not_ancestor member otherMember
  · exact fun expanded => Nat.lt_of_succ_le (maxDepth_collapse frontier.ordered expanded).le
  · rw [restored.vars_of_flat flat, Routine.vars_ofDefinition]

end CounterMachine
