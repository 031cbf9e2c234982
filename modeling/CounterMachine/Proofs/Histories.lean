import CounterMachine.Proofs.Stepping
set_option autoImplicit false

/-!
# Histories of a routine

A routine comes from a definition by actions, and every action may look functions up in another registry.
Whatever these registries hold, the forest stays in order, the nodes of the sequence stay in the forest, and
the inputs stay those of the definition. The known variables are the variables in use, as long as they are
not restored.
-/

namespace CounterMachine

/-- A definition in working order becomes a routine by allowed actions. -/
inductive Definition.Becomes (definition : Definition) (allowed : Action → Prop) : Routine → Prop where
  | source : definition.Becomes allowed (.ofDefinition definition)
  | act {routine : Routine} {action : Action} (before : definition.Becomes allowed routine)
      (permitted : allowed action) (registry : Registry) :
      definition.Becomes allowed (routine.act registry action)

namespace Routine

variable {registry : Registry} {definition : Definition} {routine next : Routine}

/-- What every action keeps, whatever functions it looks up. -/
structure Consistent (definition : Definition) (routine : Routine) : Prop where
  name : routine.name = definition.name
  ordered : routine.forest.Ordered
  present : ∀ id ∈ routine.sequence, ∃ node, routine.forest.get? id = some node
  inputs : routine.inputs = definition.inputs

theorem Consistent.sameCode (consistent : routine.Consistent definition) (same : routine.SameCode next) :
    next.Consistent definition where
  name := same.name.trans consistent.name
  ordered := same.forest ▸ consistent.ordered
  present := by
    rw [same.forest, same.sequence]
    exact consistent.present
  inputs := same.inputs.trans consistent.inputs

theorem Consistent.getElem?_nodes (consistent : routine.Consistent definition) (position : Nat) :
    routine.nodes[position]? = routine.node? position :=
  Routine.getElem?_nodes consistent.present position

theorem Consistent.instruction?_eq (consistent : routine.Consistent definition) (position : Nat) :
    routine.instruction? position = routine.instructions[position]? :=
  instruction?_eq_getElem? consistent.present position

/-! ## Expansion -/

/-- The leaves of the derived trees are the instructions after an expansion. -/
theorem Consistent.expandSelected (consistent : routine.Consistent definition) {rounds : Nat}
    {selected : Nat → Bool} (expanded : routine.expandSelected registry rounds selected = .ok next) :
    next.Consistent definition ∧
      ∃ trees supply, routine.derivations registry rounds selected routine.supply = .ok (trees, supply) ∧
        next.instructions = trees.flatMap Derivation.code := by
  obtain ⟨trees, supply, growth, derived, _, instructions, grown, rfl⟩ := expandSelected_ok expanded
  obtain ⟨news, _, derivations, grows⟩ :=
    grafted consistent.ordered consistent.present instructions grown
  have sequence : growth.sequence.toList = news.flatMap Branch.leaves := grows.sequence
  constructor
  · refine ⟨consistent.name, grows.ordered, ?_, consistent.inputs⟩
    intro id member
    change id ∈ growth.sequence.toList at member
    rw [sequence, List.mem_flatMap] at member
    obtain ⟨branch, inNews, inBranch⟩ := member
    exact (grows.held branch inNews).get?_leaf id inBranch
  · refine ⟨trees, supply, derived, ?_⟩
    change (growth.sequence.toList.filterMap growth.forest.get?).map Node.instruction = _
    rw [sequence, Branch.filterMap_leaves grows.held, derivations]

/-! ## Collapse -/

theorem Consistent.replaceTogether (consistent : routine.Consistent definition)
    {replacement : Nat → Option Nat}
    (present : ∀ id parent, replacement id = some parent →
      ∃ node, routine.forest.get? parent = some node) :
    (refresh { routine with
      sequence := replaceTogether replacement routine.sequence [] }).Consistent definition where
  name := consistent.name
  ordered := consistent.ordered
  present := by
    intro id member
    rcases mem_replaceTogether.mp member with ⟨kept, _⟩ | ⟨_, other, _, replaced⟩
    · exact consistent.present id kept
    · exact present other id replaced
  inputs := consistent.inputs

theorem Consistent.present_parent (consistent : routine.Consistent definition) {id parent : Nat}
    {node : Node} (found : routine.forest.get? id = some node) (derived : node.parent = some parent) :
    ∃ origin, routine.forest.get? parent = some origin := by
  obtain ⟨_, origin, originFound, _⟩ := consistent.ordered.child found derived
  exact ⟨origin, originFound⟩

theorem Consistent.collapse (consistent : routine.Consistent definition) :
    routine.collapse.Consistent definition := by
  unfold Routine.collapse
  dsimp only
  split
  · exact consistent
  · refine consistent.replaceTogether fun id parent replaced => ?_
    obtain ⟨node, found, here⟩ := Option.bind_eq_some_iff.mp replaced
    split at here
    · exact consistent.present_parent found here
    · cases here

theorem Consistent.collapseSingle (consistent : routine.Consistent definition) {key : String}
    (collapsed : routine.collapseSingle key = .ok next) : next.Consistent definition := by
  unfold Routine.collapseSingle at collapsed
  split at collapsed
  · cases collapsed
  · split at collapsed
    · cases collapsed
      exact consistent
    · next parent derived =>
        cases collapsed
        refine consistent.replaceTogether fun id other replaced => ?_
        obtain ⟨node, found, derived⟩ := Option.bind_eq_some_iff.mp derived
        obtain ⟨place, _, found⟩ := Option.bind_eq_some_iff.mp found
        split at replaced
        · cases replaced
          exact consistent.present_parent found derived
        · cases replaced

/-! ## Any action -/

theorem Consistent.act (consistent : routine.Consistent definition) (registry : Registry)
    (action : Action) : (routine.act registry action).Consistent definition :=
  act_keeps consistent sameCode (fun before expanded => (before.expandSelected expanded).1) collapse
    (fun before collapsed => before.collapseSingle collapsed) action

/-! ## Known variables -/

theorem vars_stepWith (registry : Registry) (run : Argument.Runner) (routine : Routine) :
    (routine.stepWith registry run).1.vars = routine.vars := by
  have outcome := stepped registry run routine
  generalize routine.stepWith registry run = result at outcome
  cases outcome <;> rfl

theorem vars_finish (registry : Registry) (fuel : Nat) (routine : Routine) :
    (routine.finish registry fuel).1.vars = routine.vars := by
  induction fuel generalizing routine with
  | zero => rfl
  | succ fuel ih =>
      have step := vars_stepWith registry (replyOf (finish registry fuel)) routine
      rw [finish]
      cases stepped : routine.stepWith registry (replyOf (finish registry fuel)) with
      | mk next outcome =>
          rw [stepped] at step
          rcases outcome with (⟨_, _⟩ | _) | _ | _
          · exact (ih next).trans step
          · exact step
          · exact step
          · exact step

theorem vars_run (registry : Registry) (fuel : Nat) (routine : Routine) (arguments : List UInt64) :
    (routine.run registry fuel arguments).1.vars = routine.vars := by
  have finished := vars_finish registry fuel (routine.start arguments)
  rw [run]
  cases ran : finish registry fuel (routine.start arguments) with
  | mk ended outcome =>
      rw [ran] at finished
      cases outcome <;> exact finished

/-- The known variables of a routine are exactly those in use. -/
def Listed (routine : Routine) : Prop :=
  routine.vars = routine.varsInUse

theorem Listed.sameCode (listed : routine.Listed) (same : routine.SameCode next)
    (kept : next.vars = routine.vars) : next.Listed := by
  rw [Listed, kept, listed, same.varsInUse]

theorem Listed.collapse (listed : routine.Listed) : routine.collapse.Listed := by
  unfold Routine.collapse
  dsimp only
  split
  · exact listed
  · rfl

theorem Listed.collapseSingle (listed : routine.Listed) {key : String}
    (collapsed : routine.collapseSingle key = .ok next) : next.Listed := by
  unfold Routine.collapseSingle at collapsed
  split at collapsed
  · cases collapsed
  · split at collapsed <;> cases collapsed
    · exact listed
    · rfl

theorem listed_expandSelected {rounds : Nat} {selected : Nat → Bool}
    (expanded : routine.expandSelected registry rounds selected = .ok next) : next.Listed := by
  obtain ⟨_, _, _, _, _, _, _, rfl⟩ := expandSelected_ok expanded
  rfl

/-- Only restoring makes a routine forget a variable that is in use. -/
theorem Listed.act (listed : routine.Listed) (registry : Registry) {action : Action}
    (kept : action ≠ .restoreVars) : (routine.act registry action).Listed := by
  cases action with
  | expand rounds => exact attempt_keeps listed fun next expanded => listed_expandSelected expanded
  | expandSingle key rounds =>
      refine attempt_keeps listed fun next expanded => ?_
      obtain ⟨position, _, expanded⟩ := expandSingle_ok expanded
      exact listed_expandSelected expanded
  | collapse => exact listed.collapse
  | collapseSingle key =>
      exact attempt_keeps listed fun next collapsed => listed.collapseSingle collapsed
  | collapseAll =>
      unfold Routine.act Routine.collapseAll
      generalize routine.maxDepth = rounds
      induction rounds with
      | zero => exact listed
      | succ rounds ih => exact ih.collapse
  | start arguments => exact listed.sameCode (.start routine arguments) rfl
  | step fuel =>
      exact listed.sameCode (.stepWith registry _ routine) (vars_stepWith registry _ routine)
  | run fuel arguments =>
      exact listed.sameCode (.run registry fuel routine arguments)
        (vars_run registry fuel routine arguments)
  | reset => exact listed.sameCode (.reset routine) rfl
  | restoreVars => exact (kept rfl).elim

end Routine

theorem Definition.Becomes.consistent {definition : Definition} {allowed : Action → Prop}
    {routine : Routine} (becomes : definition.Becomes allowed routine) :
    routine.Consistent definition := by
  induction becomes with
  | source =>
      have source := Frontier.ofDefinition ∅ definition
      exact ⟨rfl, source.ordered, source.present, source.inputs⟩
  | act _ _ registry ih => exact ih.act registry _

theorem Definition.Becomes.listed {definition : Definition} {routine : Routine}
    (becomes : definition.Becomes (· ≠ .restoreVars) routine) : routine.Listed := by
  induction becomes with
  | source => rfl
  | act _ kept registry ih => exact ih.act registry kept

theorem Definition.becomes_after (definition : Definition) (registry : Registry) (actions : List Action) :
    definition.Becomes (fun _ => True) ((Routine.ofDefinition definition).after registry actions) := by
  suffices following : ∀ routine, definition.Becomes (fun _ => True) routine →
      definition.Becomes (fun _ => True) (routine.after registry actions) from following _ .source
  induction actions with
  | nil => exact fun _ becomes => becomes
  | cons action rest ih => exact fun _ becomes => ih _ (becomes.act trivial registry)

/-! ## Variables of a copy -/

theorem VariableSet.toList_nodup (vars : VariableSet) : vars.toList.Nodup := by
  refine vars.distinct_toList.imp ?_
  rintro left right different rfl
  exact different Std.ReflCmp.compare_self

namespace Routine

variable {definition : Definition} {routine : Routine}

theorem Consistent.distinct (consistent : routine.Consistent definition) :
    (Inlining.knownVars routine).Nodup := by
  have inputs : routine.inputs = definition.vars.toList.filter Variable.isInput := consistent.inputs
  rw [Inlining.knownVars, List.cons_append, List.nodup_cons]
  constructor
  · rw [List.mem_append, inputs, Inlining.localVars]
    simp [Variable.isInput]
  · refine List.Nodup.append ?_ ?_ ?_
    · rw [inputs]
      exact (VariableSet.toList_nodup _).filter _
    · exact (VariableSet.toList_nodup _).filter _
    · intro name inInputs inLocals
      rw [Inlining.localVars, List.mem_filter] at inLocals
      simp [inInputs] at inLocals

theorem mem_varsInUse {instruction : Instruction} (member : instruction ∈ routine.instructions)
    {name : Variable} (occurs : name ∈ instruction.operation.vars) : name ∈ routine.varsInUse := by
  simp only [varsInUse, Std.ExtTreeSet.mem_insertMany_list, List.contains_iff_mem]
  exact .inr (List.mem_flatMap_of_mem member occurs)

theorem Consistent.covered (consistent : routine.Consistent definition) (listed : routine.Listed) :
    routine.Covered where
  distinct := consistent.distinct
  known := by
    intro instruction member name occurs
    have inUse := mem_varsInUse member occurs
    rw [← listed] at inUse
    exact Inlining.mem_knownVars.mpr (.inr (.inr inUse))

theorem covered_ofDefinition (definition : Definition) : (ofDefinition definition).Covered := by
  have unchanged : definition.Becomes (· ≠ .restoreVars) (ofDefinition definition) := .source
  exact unchanged.consistent.covered unchanged.listed

end Routine

end CounterMachine
