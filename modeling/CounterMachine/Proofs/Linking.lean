import CounterMachine.Proofs.Fuel
import CounterMachine.Proofs.MainDegree
set_option autoImplicit false

/-!
# Runs in linked programs

A run looks up only functions that the code calls, directly or through other functions. Two registries that
have the same functions wherever both have one, and in which all calls are known, therefore answer every call
in the same way. Two routines of the same code, each linked to one of the registries, take the same steps.
-/

namespace CounterMachine

/-! ## Calls -/

/-- Two well-formed registries have the same function wherever both have one. -/
structure Registry.Agree (left right : Registry) : Prop where
  wellFormed : left.WellFormed
  otherWellFormed : right.WellFormed
  same : ∀ {name : String} {first second : Routine}, left[name]? = some first →
    right[name]? = some second → first = second

/-- Two ways of running functions give the same reply for each function that both registries have. -/
def Registry.ReplyAlike (left right : Registry) (run other : Argument.Runner) : Prop :=
  ∀ {name : String} {callee : Routine}, left[name]? = some callee → right[name]? = some callee →
    ∀ arguments, run callee arguments = other callee arguments

/-- Programs of sources with the same functions are linked to functions that agree. -/
theorem Program.agree_of_load {source other : Source} {program linked : Program}
    (loaded : load source = .ok program) (wellFormed : program.functions.WellFormed)
    (alsoLoaded : load other = .ok linked) (alsoWellFormed : linked.functions.WellFormed)
    (functions : other.functions = source.functions) : program.functions.Agree linked.functions where
  wellFormed := wellFormed
  otherWellFormed := alsoWellFormed
  same := by
    intro name first second found alsoFound
    have inSource := load_part loaded found
    have inOther := load_part alsoLoaded alsoFound
    rw [Registry.ofSource, functions] at inOther
    exact Option.some.inj (inSource.symm.trans inOther)

namespace Argument

variable {left right : Registry} {run other : Runner}

mutual

theorem evaluate_alike (agree : left.Agree right) (alike : left.ReplyAlike right run other)
    (values : Values) : (argument : Argument) →
    (∀ inner ∈ argument.calls, ∃ callee, left[inner.function]? = some callee ∧
      callee.inputs.length = inner.arguments.length) →
    (∀ inner ∈ argument.calls, ∃ callee, right[inner.function]? = some callee ∧
      callee.inputs.length = inner.arguments.length) →
    argument.evaluate left run values = argument.evaluate right other values
  | .var name, _, _ => by rw [evaluate, evaluate]
  | .call function arguments, fits, alsoFits => by
      rw [calls] at fits alsoFits
      obtain ⟨callee, found, arity⟩ := fits ⟨function, arguments⟩ List.mem_cons_self
      obtain ⟨linked, alsoFound, _⟩ := alsoFits ⟨function, arguments⟩ List.mem_cons_self
      obtain rfl := agree.same found alsoFound
      rw [evaluate, evaluate]
      simp only [found, alsoFound, if_pos arity, alike found alsoFound]
      rw [evaluateAll_alike agree alike values arguments
        (fun inner member => fits inner (List.mem_cons_of_mem _ member))
        (fun inner member => alsoFits inner (List.mem_cons_of_mem _ member))]

theorem evaluateAll_alike (agree : left.Agree right) (alike : left.ReplyAlike right run other)
    (values : Values) : (arguments : List Argument) →
    (∀ inner ∈ callsAll arguments, ∃ callee, left[inner.function]? = some callee ∧
      callee.inputs.length = inner.arguments.length) →
    (∀ inner ∈ callsAll arguments, ∃ callee, right[inner.function]? = some callee ∧
      callee.inputs.length = inner.arguments.length) →
    evaluateAll left run values arguments = evaluateAll right other values arguments
  | [], _, _ => by rw [evaluateAll, evaluateAll]
  | argument :: rest, fits, alsoFits => by
      rw [callsAll] at fits alsoFits
      rw [evaluateAll, evaluateAll,
        evaluate_alike agree alike values argument
          (fun inner member => fits inner (List.mem_append_left _ member))
          (fun inner member => alsoFits inner (List.mem_append_left _ member)),
        evaluateAll_alike agree alike values rest
          (fun inner member => fits inner (List.mem_append_right _ member))
          (fun inner member => alsoFits inner (List.mem_append_right _ member))]

end

end Argument

theorem Operation.execute_congr {invoke other : Call → Outcome Reply} {values : Values}
    {operation : Operation} (same : ∀ call, operation.call? = some call → invoke call = other call) :
    operation.execute invoke values = operation.execute other values := by
  cases operation with
  | quote subject call | jumpEqualFunction subject call target =>
      simp only [execute, apply, same call rfl]
  | _ => rfl

/-! ## Steps and runs -/

namespace Routine

theorem stepWith_found {registry : Registry} {run : Argument.Runner} {routine : Routine}
    {instruction : Instruction} (going : routine.state.halted = false)
    (found : routine.instruction? routine.state.position = some instruction) :
    routine.stepWith registry run = match routine.attempt registry run instruction with
      | .failed failure => (routine, .failed failure)
      | .unfinished => (routine, .unfinished)
      | .done effect =>
          match routine.state.destination routine.state.position effect.flow with
          | .error failure => (routine, .failed failure)
          | .ok next =>
              (routine.moved effect next, .done (.executed routine.state.position effect.cycles)) := by
  rw [stepWith, going, if_neg Bool.false_ne_true]
  simp only [found]
  rfl

/-- Two routines of the same code, each linked to its own functions, at the same point of their runs. Only
their supplies of names may differ. -/
structure Alike (left right : Registry) (routine other : Routine) : Prop where
  runnable : routine.Runnable left
  otherRunnable : other.Runnable right
  code : other.instructions = routine.instructions
  state : other.state = { routine.state with names := other.state.names }

namespace Alike

variable {left right : Registry} {run otherRun : Argument.Runner} {routine other : Routine}

theorem proceed (alike : Alike left right routine other) {next otherNext : Routine}
    (same : routine.SameCode next) (otherSame : other.SameCode otherNext)
    (state : otherNext.state = { next.state with names := otherNext.state.names }) :
    Alike left right next otherNext where
  runnable := alike.runnable.sameCode same
  otherRunnable := alike.otherRunnable.sameCode otherSame
  code := by rw [otherSame.instructions, alike.code, same.instructions]
  state := state

theorem halt (alike : Alike left right routine other) :
    Alike left right { routine with state := routine.state.halt }
      { other with state := other.state.halt } := by
  refine alike.proceed ⟨rfl, rfl, rfl, rfl, rfl, rfl, .inl rfl⟩ ⟨rfl, rfl, rfl, rfl, rfl, rfl, .inl rfl⟩ ?_
  rw [alike.state]
  rfl

theorem destination (alike : Alike left right routine other) (position : Nat) (flow : Flow) :
    other.state.destination position flow = routine.state.destination position flow := by
  rw [alike.state]
  rfl

theorem moved (alike : Alike left right routine other) (effect : Effect) (next : Option Nat) :
    Alike left right (routine.moved effect next) (other.moved effect next) := by
  refine alike.proceed (moved_sameCode routine effect next) (moved_sameCode other effect next) ?_
  rw [Routine.moved, Routine.moved, alike.state]
  cases next <;> rfl

theorem attempt (alike : Alike left right routine other) (agree : left.Agree right)
    (replies : left.ReplyAlike right run otherRun) {instruction : Instruction}
    (member : instruction ∈ routine.instructions) :
    other.attempt right otherRun instruction = routine.attempt left run instruction := by
  have values : other.state.values = routine.state.values := by rw [alike.state]
  rw [Routine.attempt, Routine.attempt, values]
  refine Operation.execute_congr fun call calls => (Argument.evaluate_alike agree replies _ _ ?_ ?_).symm
  · exact alike.runnable.calls instruction member call calls
  · exact alike.otherRunnable.calls instruction (alike.code ▸ member) call calls

theorem stepWith (alike : Alike left right routine other) (agree : left.Agree right)
    (replies : left.ReplyAlike right run otherRun) :
    (other.stepWith right otherRun).2 = (routine.stepWith left run).2 ∧
      Alike left right (routine.stepWith left run).1 (other.stepWith right otherRun).1 := by
  have halted : other.state.halted = routine.state.halted := by rw [alike.state]
  have position : other.state.position = routine.state.position := by rw [alike.state]
  have there : other.instruction? other.state.position = routine.instruction? routine.state.position := by
    rw [alike.otherRunnable.instruction?_eq, alike.runnable.instruction?_eq, alike.code, position]
  cases going : routine.state.halted with
  | true =>
      rw [stepWith_halted going, stepWith_halted (halted.trans going)]
      exact ⟨rfl, alike⟩
  | false =>
      cases found : routine.instruction? routine.state.position with
      | none =>
          rw [stepWith_past going found, stepWith_past (halted.trans going) (there.trans found)]
          exact ⟨rfl, alike.halt⟩
      | some instruction =>
          rw [stepWith_found going found, stepWith_found (halted.trans going) (there.trans found)]
          rw [alike.runnable.instruction?_eq] at found
          rw [alike.attempt agree replies (List.mem_of_getElem? found), position]
          cases routine.attempt left run instruction with
          | failed failure => exact ⟨rfl, alike⟩
          | unfinished => exact ⟨rfl, alike⟩
          | done effect =>
              dsimp only
              rw [alike.destination]
              cases routine.state.destination routine.state.position effect.flow with
              | error failure => exact ⟨rfl, alike⟩
              | ok next => exact ⟨rfl, alike.moved effect next⟩

/-- Runs that end alike give the same reply. -/
theorem replies (agree : left.Agree right) {finish otherFinish : Routine → Routine × Outcome Unit}
    (ends : ∀ {routine other}, Alike left right routine other →
      (otherFinish other).2 = (finish routine).2 ∧
        Alike left right (finish routine).1 (otherFinish other).1) :
    left.ReplyAlike right (replyOf finish) (replyOf otherFinish) := by
  intro name callee found alsoFound arguments
  have begun : Alike left right (callee.start arguments) (callee.start arguments) :=
    ⟨(agree.wellFormed found).toRunnable.sameCode (.start callee arguments),
      (agree.otherWellFormed alsoFound).toRunnable.sameCode (.start callee arguments), rfl, rfl⟩
  obtain ⟨same, ended⟩ := ends begun
  rw [replyOf, replyOf]
  generalize finish (callee.start arguments) = first at same ended ⊢
  generalize otherFinish (callee.start arguments) = second at same ended ⊢
  obtain ⟨routine, outcome⟩ := first
  obtain ⟨other, _⟩ := second
  cases same
  cases outcome with
  | done =>
      have state : other.state = { routine.state with names := other.state.names } := ended.state
      simp only [result, State.value]
      rw [state]
  | failed | unfinished => rfl

/-- Routines that are alike come to the same end. -/
theorem finish (alike : Alike left right routine other) (agree : left.Agree right) (fuel : Nat) :
    (other.finish right fuel).2 = (routine.finish left fuel).2 ∧
      Alike left right (routine.finish left fuel).1 (other.finish right fuel).1 := by
  induction fuel generalizing routine other with
  | zero => exact ⟨rfl, alike⟩
  | succ fuel ih =>
      obtain ⟨same, after⟩ := alike.stepWith agree (replies agree ih)
      rw [Routine.finish, Routine.finish]
      generalize routine.stepWith left (replyOf (Routine.finish left fuel)) = step at same after ⊢
      generalize other.stepWith right (replyOf (Routine.finish right fuel)) = otherStep at same after ⊢
      obtain ⟨next, outcome⟩ := step
      obtain ⟨otherNext, _⟩ := otherStep
      cases same
      rcases outcome with (⟨position, cycles⟩ | _) | failure | _
      · exact ih after
      · exact ⟨rfl, after⟩
      · exact ⟨rfl, after⟩
      · exact ⟨rfl, after⟩

theorem step (alike : Alike left right routine other) (agree : left.Agree right) (fuel : Nat) :
    (other.step right fuel).2 = (routine.step left fuel).2 ∧
      Alike left right (routine.step left fuel).1 (other.step right fuel).1 :=
  alike.stepWith agree (replies agree fun both => both.finish agree fuel)

/-- Routines that are alike take the same steps. -/
theorem steps (alike : Alike left right routine other) (agree : left.Agree right) (fuel count : Nat)
    (outcomes : Array (Outcome Step)) :
    (other.steps right fuel count outcomes).2 = (routine.steps left fuel count outcomes).2 ∧
      Alike left right (routine.steps left fuel count outcomes).1
        (other.steps right fuel count outcomes).1 := by
  induction count generalizing routine other outcomes with
  | zero => exact ⟨rfl, alike⟩
  | succ count ih =>
      obtain ⟨same, after⟩ := alike.step agree fuel
      rw [Routine.steps, Routine.steps]
      generalize routine.step left fuel = step at same after ⊢
      generalize other.step right fuel = otherStep at same after ⊢
      obtain ⟨next, outcome⟩ := step
      obtain ⟨otherNext, _⟩ := otherStep
      cases same
      cases outcome with
      | done outcome => exact ih after _
      | failed failure => exact ⟨rfl, after⟩
      | unfinished => exact ⟨rfl, after⟩

end Alike

end Routine

end CounterMachine
