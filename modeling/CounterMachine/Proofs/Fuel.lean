import CounterMachine.Proofs.Stepping
set_option autoImplicit false

/-!
# Fuel

A run that came to its end with some fuel comes to the same end with more fuel. What a function yields for
some arguments is therefore one value, whatever the fuel.
-/

namespace CounterMachine

theorem Outcome.bind_done {α β : Type} {outcome : Outcome α} {next : α → Outcome β} {result : β}
    (ended : outcome.bind next = .done result) :
    ∃ value, outcome = .done value ∧ next value = .done result := by
  cases outcome with
  | done value => exact ⟨value, rfl, ended⟩
  | failed | unfinished => cases ended

theorem Outcome.map_done {α β : Type} {outcome : Outcome α} {f : α → β} {result : β}
    (ended : outcome.map f = .done result) : ∃ value, outcome = .done value ∧ f value = result := by
  obtain ⟨value, done, same⟩ := bind_done ended
  cases same
  exact ⟨value, done, rfl⟩

/-! ## Runners -/

namespace Argument

/-- One way of running functions replies whenever another does, and in the same way. -/
def Runner.Extends (run more : Runner) : Prop :=
  ∀ callee arguments reply, run callee arguments = .done reply → more callee arguments = .done reply

variable {registry : Registry} {run more : Runner}

mutual

theorem evaluate_mono (wider : run.Extends more) (values : Values) :
    (argument : Argument) → ∀ reply, argument.evaluate registry run values = .done reply →
      argument.evaluate registry more values = .done reply
  | .var name, reply, done => done
  | .call function arguments, reply, done => by
      rw [evaluate] at done ⊢
      cases found : registry[function]? with
      | none =>
          rw [found] at done
          cases done
      | some callee =>
          rw [found] at done
          by_cases arity : callee.inputs.length = arguments.length
          · simp only [if_pos arity] at done ⊢
            obtain ⟨⟨inputs, spent⟩, evaluated, called⟩ := Outcome.bind_done done
            obtain ⟨answer, ran, same⟩ := Outcome.map_done called
            rw [evaluateAll_mono wider values arguments _ evaluated, Outcome.bind]
            dsimp only
            rw [Outcome.map, wider callee inputs answer ran, Outcome.bind, same]
          · simp only [if_neg arity] at done
            cases done

theorem evaluateAll_mono (wider : run.Extends more) (values : Values) :
    (arguments : List Argument) → ∀ result, evaluateAll registry run values arguments = .done result →
      evaluateAll registry more values arguments = .done result
  | [], result, done => done
  | argument :: rest, result, done => by
      rw [evaluateAll] at done ⊢
      obtain ⟨reply, first, others⟩ := Outcome.bind_done done
      obtain ⟨later, evaluated, same⟩ := Outcome.map_done others
      rw [evaluate_mono wider values argument reply first, Outcome.bind, Outcome.map,
        evaluateAll_mono wider values rest later evaluated, Outcome.bind, same]

end

end Argument

theorem Operation.execute_mono {invoke more : Call → Outcome Reply} {values : Values}
    {operation : Operation} (wider : ∀ call reply, invoke call = .done reply → more call = .done reply)
    {effect : Effect} (executed : operation.execute invoke values = .done effect) :
    operation.execute more values = .done effect := by
  obtain ⟨applied, done, same⟩ := Outcome.map_done executed
  have again : operation.apply more values = .done applied := by
    cases operation with
    | quote subject call | jumpEqualFunction subject call target =>
        obtain ⟨reply, replied, result⟩ := Outcome.map_done done
        rw [apply, wider call reply replied, Outcome.map, Outcome.bind, result]
    | _ => exact done
  rw [execute, again, Outcome.map, Outcome.bind, same]

/-! ## Steps and runs -/

namespace Routine

variable {registry : Registry} {run more : Argument.Runner} {routine : Routine}

theorem stepWith_halted (stopped : routine.state.halted = true) :
    routine.stepWith registry run = (routine, .done .halted) := by
  rw [stepWith, if_pos stopped]

theorem stepWith_past (going : routine.state.halted = false)
    (missing : routine.instruction? routine.state.position = none) :
    routine.stepWith registry run = ({ routine with state := routine.state.halt }, .done .halted) := by
  have outcome := stepped registry run routine
  generalize routine.stepWith registry run = result at outcome ⊢
  cases outcome with
  | halted stopped =>
      rw [going] at stopped
      cases stopped
  | past => rfl
  | failed _ found | unfinished _ found | lost _ found | executed _ found =>
      rw [missing] at found
      cases found

theorem stepWith_executed {instruction : Instruction} {effect : Effect} {next : Option Nat}
    (going : routine.state.halted = false)
    (found : routine.instruction? routine.state.position = some instruction)
    (tried : routine.attempt registry run instruction = .done effect)
    (led : routine.state.destination routine.state.position effect.flow = .ok next) :
    routine.stepWith registry run =
      (routine.moved effect next, .done (.executed routine.state.position effect.cycles)) := by
  have outcome := stepped registry run routine
  generalize routine.stepWith registry run = result at outcome ⊢
  cases outcome with
  | halted stopped =>
      rw [going] at stopped
      cases stopped
  | past _ missing =>
      rw [found] at missing
      cases missing
  | failed _ present attempted | unfinished _ present attempted =>
      rw [found] at present
      cases present
      rw [tried] at attempted
      cases attempted
  | lost _ present attempted lost =>
      rw [found] at present
      cases present
      rw [tried] at attempted
      cases attempted
      rw [led] at lost
      cases lost
  | executed _ present attempted reached =>
      rw [found] at present
      cases present
      rw [tried] at attempted
      cases attempted
      rw [led] at reached
      cases reached
      rfl

theorem stepWith_mono (wider : run.Extends more) {next : Routine} {step : Step}
    (done : routine.stepWith registry run = (next, .done step)) :
    routine.stepWith registry more = (next, .done step) := by
  have outcome := stepped registry run routine
  rw [done] at outcome
  cases outcome with
  | halted stopped => exact stepWith_halted stopped
  | past going missing => exact stepWith_past going missing
  | executed going found tried led =>
      refine stepWith_executed going found ?_ led
      exact Operation.execute_mono
        (fun call reply => Argument.evaluate_mono wider routine.state.values call.toArgument reply) tried

theorem replyOf_done {finish : Routine → Routine × Outcome Unit} {callee : Routine}
    {arguments : List UInt64} {reply : Reply} :
    replyOf finish callee arguments = .done reply ↔
      ∃ ended, finish (callee.start arguments) = (ended, .done ()) ∧
        reply = ⟨ended.result, ended.state.cycles⟩ := by
  rw [replyOf]
  cases ran : finish (callee.start arguments) with
  | mk ended outcome => cases outcome <;> simp [eq_comm]

theorem finish_succ_done {fuel : Nat} {ended : Routine}
    (done : routine.finish registry (fuel + 1) = (ended, .done ())) :
    routine.stepWith registry (replyOf (finish registry fuel)) = (ended, .done .halted) ∨
      ∃ next position cycles,
        routine.stepWith registry (replyOf (finish registry fuel)) =
          (next, .done (.executed position cycles)) ∧
        next.finish registry fuel = (ended, .done ()) := by
  rw [finish] at done
  cases step : routine.stepWith registry (replyOf (finish registry fuel)) with
  | mk next outcome =>
      rw [step] at done
      rcases outcome with (⟨position, cycles⟩ | _) | problem | _
      · exact .inr ⟨next, position, cycles, rfl, done⟩
      · cases done
        exact .inl rfl
      · cases done
      · cases done

theorem finish_succ_of_halted {fuel : Nat} {ended : Routine}
    (step : routine.stepWith registry (replyOf (finish registry fuel)) = (ended, .done .halted)) :
    routine.finish registry (fuel + 1) = (ended, .done ()) := by
  rw [finish, step]

theorem finish_succ_of_executed {fuel : Nat} {next : Routine} {position : Nat} {cycles : UInt64}
    (step : routine.stepWith registry (replyOf (finish registry fuel)) =
      (next, .done (.executed position cycles))) :
    routine.finish registry (fuel + 1) = next.finish registry fuel := by
  rw [finish, step]

theorem finish_succ_mono {fuel : Nat} {ended : Routine}
    (done : routine.finish registry fuel = (ended, .done ())) :
    routine.finish registry (fuel + 1) = (ended, .done ()) := by
  induction fuel generalizing routine ended with
  | zero => cases done
  | succ fuel ih =>
      have wider : Argument.Runner.Extends (replyOf (finish registry fuel))
          (replyOf (finish registry (fuel + 1))) := by
        intro callee arguments reply replied
        obtain ⟨last, finished, same⟩ := replyOf_done.mp replied
        exact replyOf_done.mpr ⟨last, ih finished, same⟩
      rcases finish_succ_done done with step | ⟨next, position, cycles, step, rest⟩
      · exact finish_succ_of_halted (stepWith_mono wider step)
      · rw [finish_succ_of_executed (stepWith_mono wider step)]
        exact ih rest

theorem finish_mono {fuel enough : Nat} {ended : Routine}
    (done : routine.finish registry fuel = (ended, .done ())) (more : fuel ≤ enough) :
    routine.finish registry enough = (ended, .done ()) := by
  induction more with
  | refl => exact done
  | step _ ih => exact finish_succ_mono ih

theorem extends_of_le {fuel enough : Nat} (more : fuel ≤ enough) :
    Argument.Runner.Extends (replyOf (finish registry fuel)) (replyOf (finish registry enough)) := by
  intro callee arguments reply replied
  obtain ⟨last, finished, same⟩ := replyOf_done.mp replied
  exact replyOf_done.mpr ⟨last, finish_mono finished more, same⟩

theorem finish_unique {fuel other : Nat} {left right : Routine}
    (first : routine.finish registry fuel = (left, .done ()))
    (second : routine.finish registry other = (right, .done ())) : left = right := by
  have same := (finish_mono first (Nat.le_max_left fuel other)).symm.trans
    (finish_mono second (Nat.le_max_right fuel other))
  exact congrArg Prod.fst same

/-- What a function yields for some arguments, if enough fuel is given. -/
def Yields (registry : Registry) (callee : Routine) (arguments : List UInt64) (value : UInt64) : Prop :=
  ∃ fuel ended, (callee.start arguments).finish registry fuel = (ended, .done ()) ∧ ended.result = value

theorem Yields.unique {callee : Routine} {arguments : List UInt64} {left right : UInt64}
    (first : callee.Yields registry arguments left) (second : callee.Yields registry arguments right) :
    left = right := by
  obtain ⟨fuel, ended, finished, rfl⟩ := first
  obtain ⟨other, last, alsoFinished, rfl⟩ := second
  rw [finish_unique finished alsoFinished]

end Routine

end CounterMachine
