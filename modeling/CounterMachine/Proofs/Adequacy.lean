import CounterMachine.Proofs.Semantics
set_option autoImplicit false

/-!
# Adequacy

The steps of a routine are the moves of its code: a routine comes to its end with enough fuel if and only if
its code halts, and then with the values of the last store.
-/

namespace CounterMachine

theorem Values.value_insert (values : Values) (name : Variable) (value : UInt64) :
    Values.value (values.insert name value) = Function.update values.value name value := by
  funext other
  by_cases same : other = name
  · subst same
    simp [Values.value]
  · have different : name ≠ other := fun equal => same equal.symm
    simp [Values.value, Std.ExtTreeMap.getD_insert, Function.update_of_ne same, different]

/-- The position of a routine, nothing if it has halted. -/
def Routine.place (routine : Routine) : Option Nat :=
  if routine.state.halted then none else some routine.state.position

/-! ## Calls -/

namespace Argument

variable {registry : Registry}

mutual

theorem answers_of_evaluate (fuel : Nat) (values : Values) :
    (argument : Argument) → {reply : Reply} →
    argument.evaluate registry (Routine.replyOf (Routine.finish registry fuel)) values = .done reply →
    argument.Answers registry values.value reply.value
  | .var name, reply, done => by
      cases done
      rw [Answers]
  | .call function arguments, reply, done => by
      rw [evaluate] at done
      rw [Answers]
      cases found : registry[function]? with
      | none =>
          rw [found] at done
          cases done
      | some callee =>
          rw [found] at done
          by_cases arity : callee.inputs.length = arguments.length
          · simp only [if_pos arity] at done
            obtain ⟨⟨inputs, spent⟩, evaluated, called⟩ := Outcome.bind_done done
            obtain ⟨answer, ran, rfl⟩ := Outcome.map_done called
            obtain ⟨ended, finished, rfl⟩ := Routine.replyOf_done.mp ran
            exact ⟨callee, inputs, rfl, arity, answersAll_of_evaluateAll fuel values arguments evaluated,
              fuel, ended, finished, rfl⟩
          · simp only [if_neg arity] at done
            cases done

theorem answersAll_of_evaluateAll (fuel : Nat) (values : Values) :
    (arguments : List Argument) → {inputs : List UInt64} → {spent : UInt64} →
    evaluateAll registry (Routine.replyOf (Routine.finish registry fuel)) values arguments =
      .done (inputs, spent) →
    AnswersAll registry values.value arguments inputs
  | [], inputs, spent, done => by
      rw [evaluateAll] at done
      cases done
      rw [AnswersAll]
  | argument :: rest, inputs, spent, done => by
      rw [evaluateAll] at done
      obtain ⟨reply, first, others⟩ := Outcome.bind_done done
      obtain ⟨⟨later, more⟩, evaluated, same⟩ := Outcome.map_done others
      cases same
      rw [AnswersAll]
      exact ⟨reply.value, later, rfl, answers_of_evaluate fuel values argument first,
        answersAll_of_evaluateAll fuel values rest evaluated⟩

end

mutual

theorem evaluate_of_answers (values : Values) : (argument : Argument) → {value : UInt64} →
    argument.Answers registry values.value value →
    ∃ fuel cycles, argument.evaluate registry (Routine.replyOf (Routine.finish registry fuel)) values =
      .done ⟨value, cycles⟩
  | .var name, value, answers => by
      rw [Answers] at answers
      subst answers
      exact ⟨0, 0, rfl⟩
  | .call function arguments, value, answers => by
      rw [Answers] at answers
      obtain ⟨callee, inputs, found, arity, answered, fuel, ended, finished, rfl⟩ := answers
      obtain ⟨enough, spent, evaluated⟩ := evaluateAll_of_answersAll values arguments answered
      -- The larger amount serves both the arguments and the function.
      have arguments_ := evaluateAll_mono (Routine.extends_of_le (Nat.le_max_left enough fuel)) values
        arguments _ evaluated
      have called := Routine.replyOf_done.mpr
        ⟨ended, Routine.finish_mono finished (Nat.le_max_right enough fuel), rfl⟩
      refine ⟨max enough fuel, spent + ended.state.cycles, ?_⟩
      rw [evaluate]
      simp only [found, if_pos arity, arguments_, Outcome.bind, Outcome.map, called]

theorem evaluateAll_of_answersAll (values : Values) : (arguments : List Argument) →
    {inputs : List UInt64} → AnswersAll registry values.value arguments inputs →
    ∃ fuel spent, evaluateAll registry (Routine.replyOf (Routine.finish registry fuel)) values arguments =
      .done (inputs, spent)
  | [], inputs, answers => by
      rw [AnswersAll] at answers
      subst answers
      refine ⟨0, 0, ?_⟩
      rw [evaluateAll]
  | argument :: rest, inputs, answers => by
      rw [AnswersAll] at answers
      obtain ⟨value, others, rfl, answer, answered⟩ := answers
      obtain ⟨first, cycles, evaluated⟩ := evaluate_of_answers values argument answer
      obtain ⟨second, spent, evaluatedAll⟩ := evaluateAll_of_answersAll values rest answered
      have one := evaluate_mono (Routine.extends_of_le (Nat.le_max_left first second)) values argument
        _ evaluated
      have two := evaluateAll_mono (Routine.extends_of_le (Nat.le_max_right first second)) values rest
        _ evaluatedAll
      refine ⟨max first second, cycles + spent, ?_⟩
      rw [evaluateAll]
      simp only [one, two, Outcome.bind, Outcome.map]

end

end Argument

/-! ## Effects -/

namespace Operation

variable {invoke : Call → Outcome Reply} {values : Values} {operation : Operation}

theorem effect_of_execute {effect : Effect} (executed : operation.execute invoke values = .done effect) :
    ∃ answer, (∀ call, operation.call? = some call → ∃ cycles, invoke call = .done ⟨answer, cycles⟩) ∧
      operation.effect answer values.value = (effect.flow, effect.values.value) := by
  obtain ⟨applied, done, flow, after, _⟩ := execute_done executed
  rw [flow, after]
  cases operation with
  | quote subject call | jumpEqualFunction subject call target =>
      obtain ⟨reply, replied, rfl⟩ := Outcome.map_done done
      refine ⟨reply.value, ?_, by simp [Operation.effect, Values.value_insert]⟩
      intro inner found
      cases found
      exact ⟨reply.cycles, replied⟩
  | _ =>
      cases done
      exact ⟨0, nofun, by simp [Operation.effect, Values.value_insert]⟩

/-- An operation without a call has its effect, whatever calls yield, and costs the cycles of its kind. -/
theorem execute_of_silent (silent : operation.call? = none) (invoke : Call → Outcome Reply) (values : Values) :
    ∃ effect, operation.execute invoke values = .done effect ∧
      operation.effect 0 values.value = (effect.flow, effect.values.value) ∧
      effect.cycles = UInt64.ofNat operation.kind.cycles := by
  cases operation with
  | quote | jumpEqualFunction => cases silent
  | _ =>
      refine ⟨_, rfl, ?_, UInt64.add_zero _⟩
      simp [Operation.effect, Values.value_insert]

theorem execute_of_effect {answer : UInt64}
    (answered : ∀ call, operation.call? = some call →
      ∃ cycles, invoke call = .done ⟨answer, cycles⟩) :
    ∃ effect, operation.execute invoke values = .done effect ∧
      operation.effect answer values.value = (effect.flow, effect.values.value) := by
  have applied : ∃ result, operation.apply invoke values = .done result := by
    cases operation with
    | quote subject call | jumpEqualFunction subject call target =>
        obtain ⟨cycles, replied⟩ := answered call rfl
        rw [apply, replied]
        exact ⟨_, rfl⟩
    | _ => exact ⟨_, rfl⟩
  obtain ⟨result, done⟩ := applied
  have executed : ∃ effect, operation.execute invoke values = .done effect := by
    rw [execute, done]
    exact ⟨_, rfl⟩
  obtain ⟨effect, executed⟩ := executed
  obtain ⟨again, replied, same⟩ := effect_of_execute executed
  refine ⟨effect, executed, ?_⟩
  rw [← same]
  cases operation with
  | quote subject call | jumpEqualFunction subject call target =>
      obtain ⟨cycles, first⟩ := answered call rfl
      obtain ⟨others, second⟩ := replied call rfl
      rw [first] at second
      cases second
      rfl
  | _ => rfl

end Operation

/-! ## Runs -/

namespace Routine

variable {registry : Registry} {routine : Routine}

theorem place_of_going (going : routine.state.halted = false) :
    routine.place = some routine.state.position := by
  rw [place, going]
  rfl

theorem place_moved (going : routine.state.halted = false) (effect : Effect) (next : Option Nat) :
    (routine.moved effect next).place = next := by
  rw [place, moved_halted _ _ _ going]
  cases next <;> rfl

theorem Runnable.past_iff (runnable : routine.Runnable registry) {position : Nat} :
    routine.instruction? position = none ↔ routine.instructions.length ≤ position := by
  rw [runnable.instruction?_eq, List.getElem?_eq_none_iff]

theorem Runnable.moves_of_attempt (runnable : routine.Runnable registry) {fuel : Nat}
    {instruction : Instruction} {effect : Effect} {next : Option Nat}
    (found : routine.instruction? routine.state.position = some instruction)
    (tried : routine.attempt registry (replyOf (finish registry fuel)) instruction = .done effect)
    (led : routine.state.destination routine.state.position effect.flow = .ok next) :
    Moves registry routine.instructions routine.state.position routine.state.values.value next
      effect.values.value := by
  obtain ⟨answer, replied, same⟩ := Operation.effect_of_execute tried
  rw [runnable.instruction?_eq] at found
  have answered : instruction.operation.Answered registry routine.state.values.value answer := by
    intro call calls
    obtain ⟨cycles, evaluated⟩ := replied call calls
    exact Argument.answers_of_evaluate fuel _ _ evaluated
  exact .intro found answered same (runnable.destination_iff.mp led)

theorem attempt_of_answered {instruction : Instruction} {answer : UInt64}
    (answered : instruction.operation.Answered registry routine.state.values.value answer) :
    ∃ fuel effect, routine.attempt registry (replyOf (finish registry fuel)) instruction = .done effect ∧
      instruction.operation.effect answer routine.state.values.value =
        (effect.flow, effect.values.value) := by
  have execute : ∀ fuel, (∀ call, instruction.operation.call? = some call → ∃ cycles,
        call.toArgument.evaluate registry (replyOf (finish registry fuel)) routine.state.values =
          .done ⟨answer, cycles⟩) →
      ∃ effect, routine.attempt registry (replyOf (finish registry fuel)) instruction = .done effect ∧
        instruction.operation.effect answer routine.state.values.value =
          (effect.flow, effect.values.value) := by
    intro fuel replied
    exact Operation.execute_of_effect replied
  cases calls : instruction.operation.call? with
  | none => exact ⟨0, execute 0 (by simp [calls])⟩
  | some call =>
      obtain ⟨fuel, cycles, evaluated⟩ := Argument.evaluate_of_answers _ _ (answered call calls)
      refine ⟨fuel, execute fuel ?_⟩
      rw [calls]
      intro inner found
      cases found
      exact ⟨cycles, evaluated⟩

theorem Runnable.halts_of_finish (runnable : routine.Runnable registry) {fuel : Nat} {ended : Routine}
    (done : routine.finish registry fuel = (ended, .done ())) :
    ∃ count, Halts registry routine.instructions count routine.place routine.state.values.value
      ended.state.values.value := by
  induction fuel generalizing routine with
  | zero => cases done
  | succ fuel ih =>
      rcases finish_succ_done done with step | ⟨next, position, cycles, step, rest⟩
      · have outcome := stepped registry (replyOf (finish registry fuel)) routine
        rw [step] at outcome
        cases outcome with
        | halted stopped =>
            refine ⟨0, none, ?_, nofun⟩
            rw [place, stopped]
            exact .stay
        | past going missing =>
            refine ⟨0, _, .stay, ?_⟩
            intro position here
            rw [place_of_going going] at here
            cases here
            exact runnable.past_iff.mp missing
      · have outcome := stepped registry (replyOf (finish registry fuel)) routine
        rw [step] at outcome
        cases outcome with
        | @executed instruction effect place going found tried led =>
            have same := moved_sameCode routine effect place
            obtain ⟨count, halts⟩ := ih (runnable.sameCode same) rest
            rw [same.instructions, place_moved going, moved_values] at halts
            have move := runnable.moves_of_attempt found tried led
            obtain ⟨final, goes, outside⟩ := halts
            rw [place_of_going going]
            exact ⟨count + 1, final, .move move goes, outside⟩

theorem Runnable.finish_of_halts (runnable : routine.Runnable registry) {count : Nat} {last : Store}
    (halts : Halts registry routine.instructions count routine.place routine.state.values.value last) :
    ∃ fuel ended, routine.finish registry fuel = (ended, .done ()) ∧
      ended.state.values.value = last := by
  induction count generalizing routine with
  | zero =>
      obtain ⟨final, goes, outside⟩ := halts
      cases goes with
      | stay =>
          cases stopped : routine.state.halted with
          | true => exact ⟨1, routine, finish_succ_of_halted (stepWith_halted stopped), rfl⟩
          | false =>
              have past := runnable.past_iff.mpr (outside _ (place_of_going stopped))
              exact ⟨1, _, finish_succ_of_halted (stepWith_past stopped past), rfl⟩
  | succ count ih =>
      obtain ⟨final, goes, outside⟩ := halts
      generalize here : routine.place = place at goes
      cases goes with
      | @move _ position middle _ _ _ _ move others =>
          have going : routine.state.halted = false := by
            cases stopped : routine.state.halted with
            | true =>
                rw [Routine.place, stopped] at here
                cases here
            | false => rfl
          rw [place_of_going going] at here
          cases here
          obtain ⟨found, answered, acts, leads⟩ := move
          obtain ⟨enough, effect, tried, same⟩ := attempt_of_answered answered
          rw [acts] at same
          cases same
          have led := runnable.destination_iff.mpr leads
          have code := moved_sameCode routine effect middle
          obtain ⟨fuel, ended, finished, result⟩ := ih (runnable.sameCode code) (by
            rw [code.instructions, place_moved going, moved_values]
            exact ⟨final, others, outside⟩)
          -- The larger amount serves both the calls of the first step and the rest of the run.
          have first := runnable.instruction?_eq _ ▸ found
          have step := stepWith_mono (extends_of_le (Nat.le_max_left enough fuel))
            (stepWith_executed going first tried led)
          refine ⟨max enough fuel + 1, ended, ?_, result⟩
          rw [finish_succ_of_executed step]
          exact finish_mono finished (Nat.le_max_right enough fuel)

end Routine

/-! ## The start of a run -/

/-- Gives variables values one after the other. -/
def Store.bind (store : Store) (pairs : List (Variable × UInt64)) : Store :=
  pairs.foldl (fun store pair => Function.update store pair.1 pair.2) store

namespace Store

theorem bind_zip_of_not_mem {store : Store} {names : List Variable} {values : List UInt64}
    {name : Variable} (absent : name ∉ names) : store.bind (names.zip values) name = store name := by
  induction names generalizing values store with
  | nil => rfl
  | cons other names ih =>
      cases values with
      | nil => rfl
      | cons value values =>
          rw [List.mem_cons, not_or] at absent
          rw [List.zip_cons_cons, bind, List.foldl_cons]
          exact (ih absent.2).trans (Function.update_of_ne absent.1 _ _)

theorem map_bind_zip {names : List Variable} {values : List UInt64} (distinct : names.Nodup)
    (lengths : names.length = values.length) (store : Store) :
    names.map (store.bind (names.zip values)) = values := by
  induction names generalizing values store with
  | nil => simpa using lengths.symm
  | cons name names ih =>
      cases values with
      | nil => simp at lengths
      | cons value values =>
          obtain ⟨absent, distinct⟩ := List.nodup_cons.mp distinct
          rw [List.zip_cons_cons, List.map_cons, bind, List.foldl_cons]
          congr 1
          · exact (bind_zip_of_not_mem absent).trans (Function.update_self _ _ _)
          · exact ih distinct (by simpa using lengths) _

end Store

theorem Values.value_insertMany (values : Values) (pairs : List (Variable × UInt64)) :
    Values.value (values.insertMany pairs) = Store.bind values.value pairs := by
  rw [Std.ExtTreeMap.insertMany_list_eq_foldl]
  induction pairs generalizing values with
  | nil => rfl
  | cons pair rest ih =>
      rw [List.foldl_cons, ih, Values.value_insert]
      rfl

theorem Store.bind_zeros (names : List Variable) :
    Store.bind (fun _ => 0) (names.map fun name => (name, 0)) = fun _ => 0 := by
  induction names with
  | nil => rfl
  | cons name rest ih =>
      have same : Function.update (fun _ => 0 : Store) name 0 = fun _ => 0 :=
        Function.update_eq_self name _
      rw [List.map_cons, bind, List.foldl_cons, same]
      exact ih

/-- A run starts with the arguments in the inputs and with 0 everywhere else. -/
theorem Routine.value_start (routine : Routine) (arguments : List UInt64) :
    (routine.start arguments).state.values.value =
      Store.bind (fun _ => 0) (routine.inputs.zip arguments) := by
  have zeros : Values.value (∅ : Values) = fun _ => 0 := by
    funext name
    simp [Values.value]
  change Values.value (State.initialValues _ _ _) = _
  rw [State.initialValues, Values.value_insertMany, Std.ExtTreeMap.ofList_eq_insertMany_empty,
    Values.value_insertMany, zeros, Store.bind_zeros]

theorem Definition.start_work (definition : Definition) (arguments : List UInt64) {name : Variable}
    (work : name.isWork = true) :
    Store.bind (fun _ => 0) (definition.inputs.zip arguments) name = 0 := by
  apply Store.bind_zip_of_not_mem
  intro member
  have input := (List.mem_filter.mp member).2
  cases name with
  | result | input => cases work
  | work => cases input

theorem Definition.mem_vars {definition : Definition} {name : Variable} :
    name ∈ definition.vars ↔ name = .result ∨ .var name ∈ namesIn definition.body := by
  rw [Definition.vars, Std.ExtTreeSet.mem_ofList, List.contains_iff_mem, List.mem_cons, List.mem_flatMap]
  simp only [mem_namesIn, Instruction.var_mem_names, Instruction.vars]

/-! ## Runs from the start -/

namespace Routine

variable {registry : Registry} {routine : Routine}

theorem run_done_iff {fuel : Nat} {arguments : List UInt64} {ended : Routine} {value : UInt64} :
    routine.run registry fuel arguments = (ended, .done value) ↔
      (routine.start arguments).finish registry fuel = (ended, .done ()) ∧ ended.result = value := by
  rw [run]
  rcases (routine.start arguments).finish registry fuel with ⟨other, outcome⟩
  cases outcome with
  | done _ =>
      constructor
      · intro same
        cases same
        exact ⟨rfl, rfl⟩
      · intro both
        obtain ⟨same, rfl⟩ := both
        cases same
        rfl
  | failed | unfinished =>
      constructor
      · intro impossible
        cases impossible
      · rintro ⟨impossible, _⟩
        cases impossible

theorem Runnable.halts_of_run (runnable : routine.Runnable registry) {fuel : Nat}
    {arguments : List UInt64} {ended : Routine} {value : UInt64}
    (done : routine.run registry fuel arguments = (ended, .done value)) :
    ∃ count, Halts registry routine.instructions count (some 0)
      (Store.bind (fun _ => 0) (routine.inputs.zip arguments)) ended.state.values.value := by
  have same := SameCode.start routine arguments
  obtain ⟨count, halts⟩ := (runnable.sameCode same).halts_of_finish (run_done_iff.mp done).1
  rw [same.instructions, value_start] at halts
  exact ⟨count, halts⟩

theorem Runnable.run_of_halts (runnable : routine.Runnable registry) {arguments : List UInt64}
    {count : Nat} {last : Store}
    (halts : Halts registry routine.instructions count (some 0)
      (Store.bind (fun _ => 0) (routine.inputs.zip arguments)) last) :
    ∃ fuel ended, routine.run registry fuel arguments = (ended, .done (last .result)) ∧
      ended.state.values.value = last := by
  have same := SameCode.start routine arguments
  rw [← value_start, ← same.instructions] at halts
  obtain ⟨fuel, ended, finished, values⟩ := (runnable.sameCode same).finish_of_halts halts
  exact ⟨fuel, ended, run_done_iff.mpr ⟨finished, congrFun values .result⟩, values⟩

/-- What a function yields is what its code leaves in the result. -/
theorem Runnable.yields_iff (runnable : routine.Runnable registry) {arguments : List UInt64}
    {value : UInt64} :
    routine.Yields registry arguments value ↔
      ∃ count last, Halts registry routine.instructions count (some 0)
        (Store.bind (fun _ => 0) (routine.inputs.zip arguments)) last ∧ last .result = value := by
  constructor
  · intro yields
    obtain ⟨fuel, ended, finished, rfl⟩ := yields
    obtain ⟨count, halts⟩ := runnable.halts_of_run (run_done_iff.mpr ⟨finished, rfl⟩)
    exact ⟨count, _, halts, rfl⟩
  · intro found
    obtain ⟨count, last, halts, rfl⟩ := found
    obtain ⟨fuel, ended, done, values⟩ := runnable.run_of_halts halts
    obtain ⟨finished, result⟩ := run_done_iff.mp done
    exact ⟨fuel, ended, finished, result⟩

end Routine

end CounterMachine
