import CounterMachine.Proofs.Fuel
import CounterMachine.Routine.RunInPlace
set_option autoImplicit false

/-!
# Failed steps

A step in place does what a step does, failures included: an operation that writes does not jump, so nothing
was written when a jump leads nowhere, and a call fails before its result is written. A step that fails
therefore leaves the routine as it was. With more fuel it fails in the same way, as does every run that fails.
-/

namespace CounterMachine

/-! ## Steps in place -/

/-- What execution in place does is the effect of the operation on the values. -/
theorem State.executeInPlace_eq (invoke : State → Call → Outcome Reply) (state : State)
    (operation : Operation) :
    state.executeInPlace invoke operation =
      match operation.execute (invoke state) state.values with
      | .done effect => ({ state with values := effect.values }, .done (effect.flow, effect.cycles))
      | .failed failure => (state, .failed failure)
      | .unfinished => (state, .unfinished) := by
  cases operation with
  | quote subject call | jumpEqualFunction subject call target =>
      simp only [executeInPlace, applyInPlace, Operation.execute, Operation.apply, Outcome.map]
      cases invoke state call <;> rfl
  | _ => rfl

/-- Where the run goes on does not depend on the values. -/
theorem State.destination_values (state : State) (values : Values) (position : Nat) (flow : Flow) :
    State.destination { state with values } position flow = state.destination position flow :=
  rfl

/-- Only a jump can lead nowhere. -/
theorem State.flow_of_lost {state : State} {position : Nat} {flow : Flow} {failure : Failure}
    (lost : state.destination position flow = .error failure) : flow ≠ .next := by
  rintro rfl
  cases lost

namespace Routine

theorem stepInPlaceWith_eq (registry : Registry) (run : Argument.Runner) (routine : Routine) :
    routine.stepInPlaceWith registry run = routine.stepWith registry run := by
  cases stopped : routine.state.halted with
  | true => simp only [stepInPlaceWith, stepWith, stopped, if_true]
  | false =>
      have going : ¬routine.state.halted = true := by simp [stopped]
      simp only [stepInPlaceWith, stepWith, if_neg going, State.executeInPlace_eq]
      cases routine.instruction? routine.state.position with
      | none => rfl
      | some instruction =>
          dsimp only
          cases executed : instruction.operation.execute
              (fun call => call.toArgument.evaluate registry run routine.state.values)
              routine.state.values with
          | failed failure => rfl
          | unfinished => rfl
          | done effect =>
              simp only [State.destination_values]
              cases led : routine.state.destination routine.state.position effect.flow with
              | ok next => rfl
              | error failure =>
                  have kept : effect.values = routine.state.values := by
                    obtain ⟨applied, done, flow, values, _⟩ := Operation.execute_done executed
                    have jumps := State.flow_of_lost led
                    rcases Operation.write_of_apply done with unchanged | ⟨next, _⟩
                    · exact values.trans unchanged
                    · exact absurd (flow.trans next) jumps
                  simp only [kept]

theorem finishInPlace_eq (registry : Registry) (fuel : Nat) :
    finishInPlace registry fuel = finish registry fuel := by
  induction fuel with
  | zero => rfl
  | succ fuel ih =>
      funext routine
      have same := stepInPlaceWith_eq registry (replyOf (finishInPlace registry fuel)) routine
      rw [ih] at same
      unfold finishInPlace finish
      rw [ih]
      generalize routine.stepInPlaceWith registry (replyOf (finish registry fuel)) = result at same ⊢
      cases same
      obtain ⟨next, outcome⟩ := routine.stepWith registry (replyOf (finish registry fuel))
      rcases outcome with (⟨position, cycles⟩ | _) | failure | _
      · rfl
      · rfl
      · rfl
      · rfl

theorem stepInPlace_eq (registry : Registry) (fuel : Nat) (routine : Routine) :
    routine.stepInPlace registry fuel = routine.step registry fuel := by
  simp only [stepInPlace, step, finishInPlace_eq, stepInPlaceWith_eq]

end Routine

/-! ## More fuel -/

namespace Outcome

/-- An outcome is there again with more fuel, unless it is not there yet. -/
def KeptBy {α : Type} (outcome more : Outcome α) : Prop :=
  outcome = .unfinished ∨ more = outcome

variable {α β : Type} {outcome more : Outcome α}

theorem KeptBy.refl (outcome : Outcome α) : outcome.KeptBy outcome :=
  .inr rfl

theorem KeptBy.bind (kept : outcome.KeptBy more) {next later : α → Outcome β}
    (each : ∀ value, (next value).KeptBy (later value)) :
    (outcome.bind next).KeptBy (more.bind later) := by
  rcases kept with rfl | rfl
  · exact .inl rfl
  · cases more with
    | done value => exact each value
    | failed failure => exact .inr rfl
    | unfinished => exact .inl rfl

theorem KeptBy.map (kept : outcome.KeptBy more) (f : α → β) : (outcome.map f).KeptBy (more.map f) :=
  kept.bind fun _ => .refl _

end Outcome

namespace Argument

/-- One way of running functions keeps every outcome that another brings about. -/
def Runner.KeptBy (run more : Runner) : Prop :=
  ∀ callee arguments, (run callee arguments).KeptBy (more callee arguments)

variable {registry : Registry} {run more : Runner}

mutual

theorem evaluate_kept (kept : run.KeptBy more) (values : Values) : (argument : Argument) →
    (argument.evaluate registry run values).KeptBy (argument.evaluate registry more values)
  | .var name => .refl _
  | .call function arguments => by
      simp only [evaluate]
      cases registry[function]? with
      | none => exact .refl _
      | some callee =>
          by_cases arity : callee.inputs.length = arguments.length
          · simp only [if_pos arity]
            exact (evaluateAll_kept kept values arguments).bind fun evaluated =>
              (kept callee evaluated.1).map _
          · simp only [if_neg arity]
            exact .refl _

theorem evaluateAll_kept (kept : run.KeptBy more) (values : Values) : (arguments : List Argument) →
    (evaluateAll registry run values arguments).KeptBy (evaluateAll registry more values arguments)
  | [] => .refl _
  | argument :: rest => by
      simp only [evaluateAll]
      exact (evaluate_kept kept values argument).bind fun reply =>
        (evaluateAll_kept kept values rest).map _

end

end Argument

theorem Operation.execute_kept {invoke more : Call → Outcome Reply}
    (kept : ∀ call, (invoke call).KeptBy (more call)) (values : Values) (operation : Operation) :
    (operation.execute invoke values).KeptBy (operation.execute more values) := by
  have applied : (operation.apply invoke values).KeptBy (operation.apply more values) := by
    cases operation with
    | quote subject call | jumpEqualFunction subject call target => exact (kept call).map _
    | _ => exact .refl _
  exact applied.map _

namespace Routine

variable {registry : Registry} {run more : Argument.Runner} {routine : Routine}

theorem stepWith_kept (registry : Registry) (kept : run.KeptBy more) (routine : Routine) :
    (routine.stepWith registry run).2 = .unfinished ∨
      routine.stepWith registry more = routine.stepWith registry run := by
  unfold stepWith
  split
  · exact .inr rfl
  · dsimp only
    split
    · exact .inr rfl
    · next instruction found =>
        have calls : ∀ call : Call,
            (call.toArgument.evaluate registry run routine.state.values).KeptBy
              (call.toArgument.evaluate registry more routine.state.values) :=
          fun call => Argument.evaluate_kept kept routine.state.values call.toArgument
        have executed := Operation.execute_kept calls routine.state.values instruction.operation
        rcases executed with unfinished | same
        · left
          simp only [unfinished]
        · right
          simp only [same]

theorem replyOf_kept {finish other : Routine → Routine × Outcome Unit}
    (kept : ∀ routine, (finish routine).2 = .unfinished ∨ other routine = finish routine) :
    Argument.Runner.KeptBy (replyOf finish) (replyOf other) := by
  intro callee arguments
  simp only [replyOf]
  rcases kept (callee.start arguments) with unfinished | same
  · left
    generalize finish (callee.start arguments) = ended at unfinished
    obtain ⟨last, outcome⟩ := ended
    cases unfinished
    rfl
  · simp only [same]
    exact .refl _

/-- What a run comes to does not change when it gets one more unit of fuel. -/
theorem finish_succ_kept (registry : Registry) (fuel : Nat) (routine : Routine) :
    (routine.finish registry fuel).2 = .unfinished ∨
      routine.finish registry (fuel + 1) = routine.finish registry fuel := by
  induction fuel generalizing routine with
  | zero => exact .inl rfl
  | succ fuel ih =>
      have step := stepWith_kept registry (replyOf_kept ih) routine
      unfold finish
      generalize routine.stepWith registry (replyOf (finish registry fuel)) = first at step ⊢
      rcases step with unfinished | same
      · obtain ⟨next, outcome⟩ := first
        cases unfinished
        exact .inl rfl
      · simp only [same]
        obtain ⟨next, outcome⟩ := first
        rcases outcome with (⟨position, cycles⟩ | _) | failure | _
        · exact ih next
        · exact .inr rfl
        · exact .inr rfl
        · exact .inl rfl

theorem finish_kept {fuel enough : Nat} (more : fuel ≤ enough) (routine : Routine) :
    (routine.finish registry fuel).2 = .unfinished ∨
      routine.finish registry enough = routine.finish registry fuel := by
  induction more with
  | refl => exact .inr rfl
  | @step enough _ ih =>
      rcases ih with unfinished | same
      · exact .inl unfinished
      · rcases finish_succ_kept registry enough routine with unfinished | further
        · exact .inl (same ▸ unfinished)
        · exact .inr (further.trans same)

/-- What a step comes to does not change when its calls get more fuel. -/
theorem step_kept (registry : Registry) {fuel enough : Nat} (more : fuel ≤ enough) (routine : Routine) :
    (routine.step registry fuel).2 = .unfinished ∨
      routine.step registry enough = routine.step registry fuel :=
  stepWith_kept registry (replyOf_kept (finish_kept more)) routine

theorem step_of_failed {fuel : Nat} {failure : Failure}
    (failed : (routine.step registry fuel).2 = .failed failure) :
    routine.step registry fuel = (routine, .failed failure) := by
  have outcome := stepped registry (replyOf (finish registry fuel)) routine
  simp only [step] at failed ⊢
  generalize routine.stepWith registry (replyOf (finish registry fuel)) = result at outcome failed ⊢
  cases outcome with
  | halted | past | unfinished | executed => cases failed
  | failed | lost =>
      cases failed
      rfl

/-- A step that fails changes nothing, whatever it or its calls have done before the failure. It fails again
in the same way when it is repeated, also with more fuel. -/
theorem failed_step_changes_nothing (registry : Registry) (routine : Routine) (fuel : Nat) :
    routine.stepInPlace registry fuel = routine.step registry fuel ∧
    ∀ failure, (routine.stepInPlace registry fuel).2 = .failed failure →
      (routine.stepInPlace registry fuel).1 = routine ∧
      ∀ enough, fuel ≤ enough →
        (routine.stepInPlace registry fuel).1.stepInPlace registry enough = (routine, .failed failure) := by
  simp only [stepInPlace_eq, true_and]
  intro failure failed
  have ended := step_of_failed failed
  have unchanged : (routine.step registry fuel).1 = routine := congrArg Prod.fst ended
  refine ⟨unchanged, fun enough more => ?_⟩
  rcases step_kept registry more routine with unfinished | same
  · cases failed.symm.trans unfinished
  · simp only [unchanged]
    exact same.trans ended

end Routine

/-- A function that writes its result and then jumps to a label that it does not have, and another one. -/
def breaking : Registry :=
  .add (.add ∅ (.ofDefinition ⟨"Next", [.plain (.assignment .result (.input 1)), .plain (.increase .result)]⟩))
    (.ofDefinition ⟨"Broken", [.plain (.assignment .result (.input 1)), .plain (.gotoLabel (.named 9))]⟩)

def callsBroken : Routine :=
  (Routine.ofDefinition ⟨"Main",
    [.plain (.quote .result ⟨"Broken", [.call "Next" [.var (.input 1)]]⟩)]⟩).start [3]

/-- The label is missed in the second of two calls, after the first has come to its end. -/
theorem Routine.callsBroken_failed_step_changes_nothing :
    (callsBroken.stepInPlace breaking 1).2 = .unfinished ∧
    (callsBroken.stepInPlace breaking 3).2 = .failed (.undefinedLabel (.named 9) 1) ∧
    (callsBroken.stepInPlace breaking 3).1 = callsBroken ∧
    (callsBroken.stepInPlace breaking 3).1.stepInPlace breaking 5 =
      (callsBroken, .failed (.undefinedLabel (.named 9) 1)) := by
  have failed : (callsBroken.stepInPlace breaking 3).2 = .failed (.undefinedLabel (.named 9) 1) := by
    decide +kernel
  obtain ⟨_, changes⟩ := Routine.failed_step_changes_nothing breaking callsBroken 3
  obtain ⟨unchanged, again⟩ := changes _ failed
  exact ⟨by decide +kernel, failed, unchanged, again 5 (by decide)⟩

end CounterMachine
