import CounterMachine.Proofs.Acceptance
import CounterMachine.Proofs.Adequacy
import CounterMachine.Proofs.Confluence
import CounterMachine.Proofs.Renaming
set_option autoImplicit false

/-!
# Runs in lockstep

Two routines with the same basic instructions up to a permutation of names take the same steps. After each
step they stand at the same position, have spent the same cycles and hold the same values under permuted
names.
-/

namespace CounterMachine

/-! ## Permuted instructions -/

namespace Permutation

variable (permutation : Permutation)

theorem effect {store copy : Store} (mirrored : ∀ name, copy (permutation.vars name) = store name)
    (operation : Operation) (answer : UInt64) :
    ((permutation.operation operation).effect answer copy).1 =
        (operation.effect answer store).1.mapTarget permutation.labels ∧
      ∀ name, ((permutation.operation operation).effect answer copy).2 (permutation.vars name) =
        (operation.effect answer store).2 name := by
  have renamed : ∀ name, ((operation.mapVars permutation.vars).effect answer copy).1 =
        (operation.effect answer store).1 ∧
      Mirrors (name :: operation.vars) permutation.vars (operation.effect answer store).2
        ((operation.mapVars permutation.vars).effect answer copy).2 := by
    intro name
    refine Operation.effect_mapVars (fun other _ => mirrored other) ?_ ?_ answer
    · intro left _ right _ same
      exact permutation.vars.injective same
    · intro other occurs
      exact List.mem_cons_of_mem _ occurs
  rw [Permutation.operation, Operation.effect_mapTarget]
  refine ⟨congrArg (Flow.mapTarget permutation.labels) (renamed .result).1, ?_⟩
  intro name
  exact (renamed name).2 name List.mem_cons_self

theorem leads {code : List Instruction} {position : Nat} {flow : Flow} {next : Option Nat}
    (leads : Leads code position flow next) :
    Leads (code.map permutation.instruction) position (flow.mapTarget permutation.labels) next := by
  cases leads with
  | next => exact .next
  | empty =>
      rw [Flow.mapTarget, permutation.labels_empty]
      exact .empty
  | exit =>
      rw [Flow.mapTarget, permutation.labels_exit]
      exact .exit
  | @named place index instruction found label =>
      have there : (code.map permutation.instruction)[place]? =
          some (permutation.instruction instruction) := by
        rw [List.getElem?_map, found]
        rfl
      have named := permutation.isNamed_labels (.named index)
      cases image : permutation.labels (.named index) with
      | empty | exit =>
          rw [image] at named
          cases named
      | named other =>
          rw [Flow.mapTarget, image]
          exact .named there ((congrArg permutation.labels label).trans image)

end Permutation

/-! ## Twins -/

/-- Two routines with the same basic code up to names, at the same point of their runs. -/
structure Twins (registry : Registry) (permutation : Permutation) (left right : Routine) : Prop where
  leftRunnable : left.Runnable registry
  rightRunnable : right.Runnable registry
  code : right.instructions = left.instructions.map permutation.instruction
  basic : ∀ instruction ∈ left.instructions, instruction.isBasic = true
  position : right.state.position = left.state.position
  halted : right.state.halted = left.state.halted
  cycles : right.state.cycles = left.state.cycles
  steps : right.state.history.size = left.state.history.size
  values : ∀ name, right.state.values.value (permutation.vars name) = left.state.values.value name

namespace Twins

variable {registry : Registry} {permutation : Permutation} {left right : Routine}

theorem moved (twins : Twins registry permutation left right) {effect other : Effect}
    (going : left.state.halted = false) (cycles : other.cycles = effect.cycles)
    (values : ∀ name, other.values.value (permutation.vars name) = effect.values.value name)
    (next : Option Nat) :
    Twins registry permutation (left.moved effect next) (right.moved other next) := by
  have leftCode := Routine.moved_sameCode left effect next
  have rightCode := Routine.moved_sameCode right other next
  have alsoGoing : right.state.halted = false := twins.halted.trans going
  constructor
  · exact twins.leftRunnable.sameCode leftCode
  · exact twins.rightRunnable.sameCode rightCode
  · rw [rightCode.instructions, leftCode.instructions]
    exact twins.code
  · rw [leftCode.instructions]
    exact twins.basic
  · cases next with
    | none => exact congrArg (· + 1) twins.position
    | some place => rfl
  · rw [Routine.moved_halted _ _ _ going, Routine.moved_halted _ _ _ alsoGoing]
  · rw [Routine.moved_cycles, Routine.moved_cycles, twins.cycles, cycles]
  · rw [Routine.moved_steps, Routine.moved_steps, twins.steps]
  · intro name
    rw [Routine.moved_values, Routine.moved_values]
    exact values name

theorem halt (twins : Twins registry permutation left right) :
    Twins registry permutation { left with state := left.state.halt }
      { right with state := right.state.halt } :=
  { twins with
    leftRunnable := twins.leftRunnable.sameCode ⟨rfl, rfl, rfl, rfl, rfl, rfl, .inl rfl⟩
    rightRunnable := twins.rightRunnable.sameCode ⟨rfl, rfl, rfl, rfl, rfl, rfl, .inl rfl⟩
    halted := rfl }

theorem effects (twins : Twins registry permutation left right) (run : Argument.Runner)
    {instruction : Instruction} (member : instruction ∈ left.instructions) :
    ∃ effect other next, left.attempt registry run instruction = .done effect ∧
      right.attempt registry run (permutation.instruction instruction) = .done other ∧
      left.state.destination left.state.position effect.flow = .ok next ∧
      right.state.destination right.state.position other.flow = .ok next ∧
      other.cycles = effect.cycles ∧
      ∀ name, other.values.value (permutation.vars name) = effect.values.value name := by
  have basic := twins.basic instruction member
  have alsoBasic := permutation.isBasic_instruction instruction
  rw [basic] at alsoBasic
  obtain ⟨effect, executed, acts, cycles⟩ := Operation.execute_of_silent (Instruction.call?_of_basic basic)
    (fun call => call.toArgument.evaluate registry run left.state.values) left.state.values
  obtain ⟨other, alsoExecuted, alsoActs, otherCycles⟩ :=
    Operation.execute_of_silent (Instruction.call?_of_basic alsoBasic)
      (fun call => call.toArgument.evaluate registry run right.state.values) right.state.values
  obtain ⟨flow, values⟩ := permutation.effect twins.values instruction.operation 0
  change (permutation.operation instruction.operation).effect 0 _ = _ at alsoActs
  rw [acts, alsoActs] at flow values
  have flows := Operation.flow_effect 0 left.state.values.value instruction.operation
  rw [acts] at flows
  obtain ⟨next, led⟩ := @Resolved.leads _ twins.leftRunnable.resolved left.state.position _ member _ flows
  have alsoLed := permutation.leads led
  rw [← twins.code, ← twins.position, ← flow] at alsoLed
  refine ⟨effect, other, next, executed, alsoExecuted, twins.leftRunnable.destination_iff.mpr led,
    twins.rightRunnable.destination_iff.mpr alsoLed, ?_, values⟩
  rw [otherCycles, cycles]
  simp [Permutation.instruction, Permutation.operation]

/-- Twins take the same step. -/
theorem step (twins : Twins registry permutation left right) (run : Argument.Runner) :
    (right.stepWith registry run).2 = (left.stepWith registry run).2 ∧
      Twins registry permutation (left.stepWith registry run).1 (right.stepWith registry run).1 := by
  have alsoHalted := twins.halted
  cases stopped : left.state.halted with
  | true =>
      rw [stopped] at alsoHalted
      rw [Routine.stepWith_halted stopped, Routine.stepWith_halted alsoHalted]
      exact ⟨rfl, twins⟩
  | false =>
      rw [stopped] at alsoHalted
      have there : right.instruction? right.state.position =
          (left.instruction? left.state.position).map permutation.instruction := by
        rw [twins.rightRunnable.instruction?_eq, twins.leftRunnable.instruction?_eq, twins.code,
          twins.position, List.getElem?_map]
      cases found : left.instruction? left.state.position with
      | none =>
          rw [found] at there
          rw [Routine.stepWith_past stopped found, Routine.stepWith_past alsoHalted there]
          exact ⟨rfl, twins.halt⟩
      | some instruction =>
          rw [found, Option.map_some] at there
          have member : instruction ∈ left.instructions := by
            rw [twins.leftRunnable.instruction?_eq] at found
            exact List.mem_of_getElem? found
          obtain ⟨effect, other, next, executed, alsoExecuted, led, alsoLed, cycles, values⟩ :=
            twins.effects run member
          rw [Routine.stepWith_executed stopped found executed led,
            Routine.stepWith_executed alsoHalted there alsoExecuted alsoLed, twins.position, cycles]
          exact ⟨rfl, twins.moved stopped cycles values next⟩

theorem finish (twins : Twins registry permutation left right) (fuel : Nat) :
    (right.finish registry fuel).2 = (left.finish registry fuel).2 ∧
      Twins registry permutation (left.finish registry fuel).1 (right.finish registry fuel).1 := by
  induction fuel generalizing left right with
  | zero => exact ⟨rfl, twins⟩
  | succ fuel ih =>
      obtain ⟨same, after⟩ := twins.step (Routine.replyOf (Routine.finish registry fuel))
      rw [Routine.finish, Routine.finish]
      generalize left.stepWith registry (Routine.replyOf (Routine.finish registry fuel)) = leftStep
        at same after ⊢
      generalize right.stepWith registry (Routine.replyOf (Routine.finish registry fuel)) = rightStep
        at same after ⊢
      obtain ⟨leftNext, outcome⟩ := leftStep
      obtain ⟨rightNext, _⟩ := rightStep
      cases same
      rcases outcome with (⟨position, cycles⟩ | _) | failure | _
      · exact ih after
      · exact ⟨rfl, after⟩
      · exact ⟨rfl, after⟩
      · exact ⟨rfl, after⟩

theorem start (leftRunnable : left.Runnable registry) (rightRunnable : right.Runnable registry)
    (code : right.instructions = left.instructions.map permutation.instruction)
    (basic : ∀ instruction ∈ left.instructions, instruction.isBasic = true) {definition : Definition}
    (leftInputs : left.inputs = definition.inputs) (rightInputs : right.inputs = definition.inputs)
    (arguments : List UInt64) :
    Twins registry permutation (left.start arguments) (right.start arguments) := by
  have leftCode := Routine.SameCode.start left arguments
  have rightCode := Routine.SameCode.start right arguments
  refine {
    leftRunnable := leftRunnable.sameCode leftCode
    rightRunnable := rightRunnable.sameCode rightCode
    code := by rw [rightCode.instructions, leftCode.instructions, code]
    basic := by rwa [leftCode.instructions]
    position := rfl
    halted := rfl
    cycles := rfl
    steps := rfl
    values := ?_ }
  intro name
  rw [Routine.value_start, Routine.value_start, leftInputs, rightInputs]
  cases work : name.isWork with
  | false => rw [permutation.vars_known work]
  | true =>
      rw [definition.start_work arguments work]
      exact definition.start_work arguments ((permutation.isWork_vars name).trans work)

end Twins

theorem Twins.run {registry : Registry} {permutation : Permutation} {left right : Routine}
    {arguments : List UInt64}
    (twins : Twins registry permutation (left.start arguments) (right.start arguments)) (fuel : Nat) :
    (right.run registry fuel arguments).2 = (left.run registry fuel arguments).2 ∧
      (right.run registry fuel arguments).1.state.history.size =
        (left.run registry fuel arguments).1.state.history.size ∧
      (right.run registry fuel arguments).1.state.cycles =
        (left.run registry fuel arguments).1.state.cycles := by
  obtain ⟨same, ended⟩ := twins.finish fuel
  rw [Routine.run, Routine.run]
  generalize (left.start arguments).finish registry fuel = leftRun at same ended ⊢
  generalize (right.start arguments).finish registry fuel = rightRun at same ended ⊢
  obtain ⟨leftEnded, outcome⟩ := leftRun
  obtain ⟨rightEnded, _⟩ := rightRun
  cases same
  have result : rightEnded.result = leftEnded.result := by
    have value := ended.values .result
    rwa [permutation.vars_known rfl] at value
  cases outcome with
  | done _ => exact ⟨congrArg Outcome.done result, ended.steps, ended.cycles⟩
  | failed | unfinished => exact ⟨rfl, ended.steps, ended.cycles⟩

/-- Expansion is confluent up to names. If two sequences of actions on the main routine of an accepted source
both leave only basic instructions, a permutation of the named labels and of the work variables that fixes
all names of the source takes one list of instructions to the other. So the two runs on any arguments have
the same outcome with any fuel, and they take the same number of steps and of cycles. -/
theorem Program.expansion_confluent (source : Source) (accepted : source.violations = []) :
    ∃ program, Program.load source = .ok program ∧ ∀ first second : List Action,
      let left := program.main.after program.functions first
      let right := program.main.after program.functions second
      left.isBasic = true → right.isBasic = true →
      ∃ permutation : Permutation,
        (∀ name ∈ namesIn source.program.body, permutation.name name = name) ∧
        (∀ name ∈ source.program.vars, permutation.vars name = name) ∧
        right.instructions = left.instructions.map permutation.instruction ∧
        ∀ (fuel : Nat) (arguments : List UInt64),
          (right.run program.functions fuel arguments).2 = (left.run program.functions fuel arguments).2 ∧
          (right.run program.functions fuel arguments).1.state.history.size =
            (left.run program.functions fuel arguments).1.state.history.size ∧
          (right.run program.functions fuel arguments).1.state.cycles =
            (left.run program.functions fuel arguments).1.state.cycles := by
  obtain ⟨program, loaded, sourceMain, wellFormed, resolved, fit⟩ := Program.load_wellFormed accepted
  refine ⟨program, loaded, ?_⟩
  intro first second left right leftBasic rightBasic
  have sourceFrontier := Frontier.ofDefinition program.functions source.program
  rw [← sourceMain] at sourceFrontier
  obtain ⟨leftBranches, leftDraft, leftFrontier⟩ := sourceFrontier.after first
  obtain ⟨rightBranches, rightDraft, rightFrontier⟩ := sourceFrontier.after second
  have leftRunnable := leftFrontier.runnable wellFormed resolved fit
  have rightRunnable := rightFrontier.runnable wellFormed resolved fit
  have basic : ∀ instruction ∈ left.instructions, instruction.isBasic = true :=
    List.all_eq_true.mp leftBasic
  have sameSource : source.program.body =
      source.program.body.map Permutation.identity.instruction := by
    rw [List.map_congr_left fun instruction _ => Permutation.instruction_identity instruction,
      List.map_id']
  obtain ⟨permutation, fixed, mapped⟩ := (leftFrontier.unfolding wellFormed).permuted wellFormed
    (rightFrontier.unfolding wellFormed) rfl sameSource basic (List.all_eq_true.mp rightBasic)
  have kept : ∀ name ∈ namesIn source.program.body, permutation.name name = name := by
    intro name occurs
    rw [fixed name occurs, Permutation.name_identity]
  refine ⟨permutation, kept, ?_, mapped, ?_⟩
  · intro name member
    rcases Definition.mem_vars.mp member with result | occurs
    · rw [result, permutation.vars_known rfl]
    · exact Name.var.inj (kept (.var name) occurs)
  · intro fuel arguments
    exact (Twins.start leftRunnable rightRunnable mapped basic leftFrontier.inputs rightFrontier.inputs
      arguments).run fuel

theorem Program.sample_expansion_confluent :
    sampleSource.violations = [] ∧ ∃ program, Program.load sampleSource = .ok program ∧
      let left := program.main.after program.functions [.expand 3]
      let right := program.main.after program.functions
        [.expand 1, .reset, .expand 1, .collapse, .expand 2]
      left.isBasic = true ∧ right.isBasic = true ∧ right.instructions ≠ left.instructions ∧
        ∃ permutation : Permutation,
          right.instructions = left.instructions.map permutation.instruction := by
  refine ⟨sampleSource_accepted, ?_⟩
  obtain ⟨program, loaded, confluent⟩ :=
    Program.expansion_confluent sampleSource sampleSource_accepted
  have expanded : (Program.load sampleSource).toOption.all (fun program =>
      let left := program.main.after program.functions [.expand 3]
      let right := program.main.after program.functions
        [.expand 1, .reset, .expand 1, .collapse, .expand 2]
      left.isBasic && right.isBasic && right.instructions != left.instructions) = true := by
    decide +kernel
  rw [loaded] at expanded
  simp only [Except.toOption, Option.all_some, Bool.and_eq_true, bne_iff_ne] at expanded
  obtain ⟨⟨leftBasic, rightBasic⟩, different⟩ := expanded
  obtain ⟨permutation, _, _, mapped, _⟩ := confluent _ _ leftBasic rightBasic
  exact ⟨program, loaded, leftBasic, rightBasic, different, permutation, mapped⟩

end CounterMachine
