import CounterMachine.Proofs.Adequacy
import CounterMachine.Proofs.FailedSteps
set_option autoImplicit false

/-!
# Footprints of instructions

The variables that an instruction lists are all that its execution reads, and the only variable that it can
write is its own one. The value of a call depends on the values of its arguments alone, because the called
functions run on copies of their own.
-/

namespace CounterMachine

/-- Two assignments of values agree on some variables. -/
def Values.AgreeOn (names : List Variable) (values other : Values) : Prop :=
  ∀ name ∈ names, other.value name = values.value name

theorem Values.AgreeOn.insert {names : List Variable} {values other : Values}
    (agree : AgreeOn names values other) (subject : Variable) (value : UInt64) :
    AgreeOn names (values.insert subject value) (other.insert subject value) := by
  intro name member
  simp only [Values.value_insert]
  by_cases same : name = subject
  · subst same
    simp only [Function.update_self]
  · simp only [Function.update_of_ne same, agree name member]

/-! ## Calls -/

namespace Argument

variable {registry : Registry} {run : Runner} {values other : Values}

mutual

/-- An argument is evaluated with the values of its own variables only. -/
theorem evaluate_of_agree : (argument : Argument) → Values.AgreeOn argument.vars values other →
    argument.evaluate registry run other = argument.evaluate registry run values
  | .var name, agree => by
      have same := agree name (by simp [vars])
      simp only [evaluate, same]
  | .call function arguments, agree => by
      simp only [evaluate, evaluateAll_of_agree arguments agree]

theorem evaluateAll_of_agree : (arguments : List Argument) →
    Values.AgreeOn (varsAll arguments) values other →
    evaluateAll registry run other arguments = evaluateAll registry run values arguments
  | [], _ => rfl
  | argument :: rest, agree => by
      have first : Values.AgreeOn argument.vars values other := fun name member =>
        agree name (List.mem_append_left _ member)
      have others : Values.AgreeOn (varsAll rest) values other := fun name member =>
        agree name (List.mem_append_right _ member)
      simp only [evaluateAll, evaluate_of_agree argument first, evaluateAll_of_agree rest others]

end

end Argument

/-! ## Operations -/

namespace State

variable {invoke : State → Call → Outcome Reply} {state other : State} {operation : Operation}

/-- An operation changes nothing but the value of the variable that it is about. -/
theorem executeInPlace_frame (invoke : State → Call → Outcome Reply) (state : State)
    (operation : Operation) :
    (state.executeInPlace invoke operation).1 = state ∨
      ∃ subject value, operation.subject? = some subject ∧ subject ∈ operation.vars ∧
        (state.executeInPlace invoke operation).1 = state.set subject value := by
  cases operation with
  | increase subject | decrease subject | zeroVariable subject | constantAssignment subject constant
  | assignment subject source => exact .inr ⟨subject, _, rfl, List.mem_cons_self, rfl⟩
  | jumpNotZero | neutral | gotoLabel | jumpZero | jumpEqualConstant | jumpEqualVariable => exact .inl rfl
  | quote subject call =>
      simp only [executeInPlace, applyInPlace]
      cases invoke state call with
      | done reply => exact .inr ⟨subject, reply.value, rfl, List.mem_cons_self, rfl⟩
      | failed | unfinished => exact .inl rfl
  | jumpEqualFunction subject call target =>
      simp only [executeInPlace, applyInPlace]
      cases invoke state call <;> exact .inl rfl

/-- An operation does the same to two states that agree on its variables, if its call is answered alike. -/
theorem executeInPlace_of_agree (agree : Values.AgreeOn operation.vars state.values other.values)
    (answers : ∀ call, operation.call? = some call → invoke other call = invoke state call) :
    (other.executeInPlace invoke operation).2 = (state.executeInPlace invoke operation).2 ∧
      Values.AgreeOn operation.vars (state.executeInPlace invoke operation).1.values
        (other.executeInPlace invoke operation).1.values := by
  have same (name : Variable) (member : name ∈ operation.vars) : other.value name = state.value name :=
    agree name member
  cases operation with
  | neutral | gotoLabel => exact ⟨rfl, agree⟩
  | zeroVariable subject | constantAssignment subject constant => exact ⟨rfl, agree.insert subject _⟩
  | increase subject | decrease subject =>
      simp only [executeInPlace, applyInPlace, same subject List.mem_cons_self, true_and]
      exact agree.insert subject _
  | assignment subject source =>
      have read := same source (by simp [Operation.vars])
      simp only [executeInPlace, applyInPlace, read, true_and]
      exact agree.insert subject _
  | jumpNotZero subject target | jumpZero subject target | jumpEqualConstant subject constant target =>
      simp only [executeInPlace, applyInPlace, same subject List.mem_cons_self, true_and]
      exact agree
  | jumpEqualVariable subject compared target =>
      have left := same subject List.mem_cons_self
      have right := same compared (by simp [Operation.vars])
      simp only [executeInPlace, applyInPlace, left, right, true_and]
      exact agree
  | quote subject call =>
      simp only [executeInPlace, applyInPlace, answers call rfl]
      cases invoke state call with
      | done reply => exact ⟨rfl, agree.insert subject _⟩
      | failed | unfinished => exact ⟨rfl, agree⟩
  | jumpEqualFunction subject call target =>
      simp only [executeInPlace, applyInPlace, answers call rfl, same subject List.mem_cons_self]
      cases invoke state call <;> exact ⟨rfl, agree⟩

/-- What an operation does in place is what it does. -/
theorem performInPlace_eq (registry : Registry) (fuel : Nat) (state : State) (operation : Operation) :
    state.performInPlace registry fuel operation = state.execute registry fuel operation := by
  simp only [performInPlace, Routine.finishInPlace_eq]
  exact executeInPlace_eq _ state operation

/-- Once the call of an operation comes to its end, more fuel makes no difference. -/
theorem execute_kept (registry : Registry) {fuel enough : Nat} (more : fuel ≤ enough) (state : State)
    (operation : Operation) :
    (state.execute registry fuel operation).2 = .unfinished ∨
      state.execute registry enough operation = state.execute registry fuel operation := by
  have replies : Argument.Runner.KeptBy (Routine.replyOf (Routine.finish registry fuel))
      (Routine.replyOf (Routine.finish registry enough)) := Routine.replyOf_kept (Routine.finish_kept more)
  have calls : ∀ call : Call,
      (call.toArgument.evaluate registry (Routine.replyOf (Routine.finish registry fuel)) state.values).KeptBy
        (call.toArgument.evaluate registry (Routine.replyOf (Routine.finish registry enough)) state.values) :=
    fun call => Argument.evaluate_kept replies state.values call.toArgument
  simp only [execute]
  rcases Operation.execute_kept calls state.values operation with unfinished | same
  · left
    simp only [unfinished]
  · right
    simp only [same]

/-- The variables that an instruction lists are all that matters for its execution. States that agree on them
have the same outcome, be it flow and cycles or a failure, and agree on them afterwards. Only the variable that
the instruction is about can change, if it is listed, and nothing but the values does. None of this depends on
the fuel, once the calls come to their end. -/
theorem execution_footprint (registry : Registry) (fuel : Nat) (instruction : Instruction) (state : State) :
    let ran := state.performInPlace registry fuel instruction.operation
    (∀ other : State, (∀ name ∈ instruction.vars, other.value name = state.value name) →
      let also := other.performInPlace registry fuel instruction.operation
      also.2 = ran.2 ∧ ∀ name ∈ instruction.vars, also.1.value name = ran.1.value name) ∧
    (∀ name, ran.1.values[name]? ≠ state.values[name]? →
      instruction.operation.subject? = some name ∧ name ∈ instruction.vars) ∧
    ran.1 = { state with values := ran.1.values } ∧
    ∀ enough, fuel ≤ enough → ran.2 ≠ .unfinished →
      state.performInPlace registry enough instruction.operation = ran := by
  intro ran
  refine ⟨fun other agree => ?_, ?_, ?_, fun enough more finished => ?_⟩
  · refine executeInPlace_of_agree agree fun call calls => ?_
    refine Argument.evaluate_of_agree call.toArgument fun name member => agree name ?_
    exact Operation.vars_of_call calls member
  · intro name changed
    rcases executeInPlace_frame _ state instruction.operation with same | ⟨subject, value, about, listed, same⟩
    · exact absurd (congrArg (fun next : State => next.values[name]?) same) changed
    · have written : ran.1.values = state.values.insert subject value :=
        congrArg State.values same
      simp only [written, Std.ExtTreeMap.getElem?_insert, Std.LawfulEqCmp.compare_eq_iff_eq] at changed
      split at changed
      · next equal => exact equal ▸ ⟨about, listed⟩
      · exact absurd rfl changed
  · rcases executeInPlace_frame _ state instruction.operation with same | ⟨subject, value, _, _, same⟩
    · have unchanged : ran.1 = state := same
      simp only [unchanged]
    · have written : ran.1 = state.set subject value := same
      simp only [written, set]
  · simp only [ran, performInPlace_eq] at finished ⊢
    exact (execute_kept registry more state instruction.operation).resolve_left finished

end State

/-- A function, and another one that passes its argument on to the first. -/
def relaying : Registry :=
  .ofSource ⟨⟨"Main", []⟩,
    [⟨"Next", [.plain (.assignment .result (.input 1)), .plain (.increase .result)]⟩,
      ⟨"Relay", [.plain (.quote .result ⟨"Next", [.var (.input 1)]⟩)]⟩]⟩

def relaysNext : Instruction :=
  .labeled (.named 1) (.quote (.work 1) ⟨"Relay", [.call "Next" [.var (.input 1)]]⟩)

def smallState : State :=
  (State.set {} (.input 1) 3).set (.work 1) 7

/-- A state in the middle of a run, with two more values. -/
def largerState : State :=
  { (smallState.set .result 2).set (.work 2) 9 with position := 4, cycles := 6 }

/-- The two states agree on the variables of a nested call, but not on the result. -/
theorem State.relaysNext_footprint :
    largerState.value .result ≠ smallState.value .result ∧
    (∀ name ∈ relaysNext.vars, largerState.value name = smallState.value name) ∧
    (smallState.performInPlace relaying 5 relaysNext.operation).2 = .done (.next, 20) ∧
    (largerState.performInPlace relaying 5 relaysNext.operation).2 = .done (.next, 20) ∧
    (largerState.performInPlace relaying 5 relaysNext.operation).1.value (.work 1) =
      (smallState.performInPlace relaying 5 relaysNext.operation).1.value (.work 1) := by
  have agree : ∀ name ∈ relaysNext.vars, largerState.value name = smallState.value name := by
    decide +kernel
  have outcome : (smallState.performInPlace relaying 5 relaysNext.operation).2 = .done (.next, 20) := by
    decide +kernel
  obtain ⟨same, after⟩ := (execution_footprint relaying 5 relaysNext smallState).1 largerState agree
  exact ⟨by decide +kernel, agree, outcome, same.trans outcome, after (.work 1) (by decide)⟩

end CounterMachine
