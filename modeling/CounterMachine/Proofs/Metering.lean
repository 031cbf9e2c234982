import CounterMachine.Proofs.Adequacy
import Mathlib.Algebra.GroupWithZero.Nat
set_option autoImplicit false

/-!
# Metering

An account of a run lists the instructions that are executed in it, those in the calls of an instruction
included, and says nothing about cycles. A run that comes to its end has exactly one account, and the counter
shows the cycles of the kinds in it: none is lost between a call and its caller, and none is counted twice.
-/

namespace CounterMachine

/-! ## Accounts of runs -/

mutual

/-- The value of an argument in a store, and the instructions that are executed to find it. -/
inductive Argument.Accounts (registry : Registry) :
    Store → Argument → UInt64 → List Instruction → Prop where
  | var {store : Store} {name : Variable} : Argument.Accounts registry store (.var name) (store name) []
  | call {store last : Store} {function : String} {arguments : List Argument} {callee : Routine}
      {inputs : List UInt64} {value : UInt64} {before body : List Instruction}
      (found : registry[function]? = some callee) (arity : callee.inputs.length = arguments.length)
      (evaluated : Argument.AccountsAll registry store arguments inputs before)
      (ran : Routine.Accounts registry callee (some 0)
        (Store.bind (fun _ => 0) (callee.inputs.zip inputs)) last body)
      (yields : value = last .result) :
      Argument.Accounts registry store (.call function arguments) value (before ++ body)

/-- The values of some arguments, and the instructions that are executed to find them. -/
inductive Argument.AccountsAll (registry : Registry) :
    Store → List Argument → List UInt64 → List Instruction → Prop where
  | nil {store : Store} : Argument.AccountsAll registry store [] [] []
  | cons {store : Store} {argument : Argument} {rest : List Argument} {value : UInt64}
      {others : List UInt64} {first later : List Instruction}
      (head : Argument.Accounts registry store argument value first)
      (tail : Argument.AccountsAll registry store rest others later) :
      Argument.AccountsAll registry store (argument :: rest) (value :: others) (first ++ later)

/-- The store at the end of a run that goes on from a place, and the instructions that are executed until
then: each instruction before those of its call. -/
inductive Routine.Accounts (registry : Registry) :
    Routine → Option Nat → Store → Store → List Instruction → Prop where
  | left {routine : Routine} {store : Store} : Routine.Accounts registry routine none store store []
  | past {routine : Routine} {store : Store} {position : Nat}
      (missing : routine.instruction? position = none) :
      Routine.Accounts registry routine (some position) store store []
  | plain {routine : Routine} {store after last : Store} {position : Nat} {next : Option Nat}
      {instruction : Instruction} {flow : Flow} {later : List Instruction}
      (found : routine.instruction? position = some instruction) (silent : instruction.call? = none)
      (acts : instruction.operation.effect 0 store = (flow, after))
      (led : routine.state.destination position flow = .ok next)
      (rest : Routine.Accounts registry routine next after last later) :
      Routine.Accounts registry routine (some position) store last (instruction :: later)
  | calling {routine : Routine} {store after last : Store} {position : Nat} {next : Option Nat}
      {instruction : Instruction} {call : Call} {answer : UInt64} {flow : Flow}
      {inner later : List Instruction}
      (found : routine.instruction? position = some instruction) (calls : instruction.call? = some call)
      (answered : Argument.Accounts registry store call.toArgument answer inner)
      (acts : instruction.operation.effect answer store = (flow, after))
      (led : routine.state.destination position flow = .ok next)
      (rest : Routine.Accounts registry routine next after last later) :
      Routine.Accounts registry routine (some position) store last (instruction :: (inner ++ later))

end

/-! ## One account -/

section Unique

variable {registry : Registry}

mutual

theorem Argument.Accounts.unique {store : Store} {argument : Argument} {left right : UInt64}
    {performed other : List Instruction} (account : argument.Accounts registry store left performed)
    (again : argument.Accounts registry store right other) : left = right ∧ performed = other := by
  match account, again with
  | .var, .var => exact ⟨rfl, rfl⟩
  | .call found _ evaluated ran yields, .call alsoFound _ alsoEvaluated alsoRan alsoYields =>
      cases found.symm.trans alsoFound
      obtain ⟨rfl, rfl⟩ := evaluated.unique alsoEvaluated
      obtain ⟨rfl, rfl⟩ := ran.unique alsoRan
      exact ⟨yields.trans alsoYields.symm, rfl⟩
termination_by structural account

theorem Argument.AccountsAll.unique {store : Store} {arguments : List Argument} {left right : List UInt64}
    {performed other : List Instruction}
    (account : Argument.AccountsAll registry store arguments left performed)
    (again : Argument.AccountsAll registry store arguments right other) :
    left = right ∧ performed = other := by
  match account, again with
  | .nil, .nil => exact ⟨rfl, rfl⟩
  | .cons head tail, .cons alsoHead alsoTail =>
      obtain ⟨rfl, rfl⟩ := head.unique alsoHead
      obtain ⟨rfl, rfl⟩ := tail.unique alsoTail
      exact ⟨rfl, rfl⟩
termination_by structural account

theorem Routine.Accounts.unique {routine : Routine} {place : Option Nat} {store left right : Store}
    {performed other : List Instruction} (account : routine.Accounts registry place store left performed)
    (again : routine.Accounts registry place store right other) : left = right ∧ performed = other := by
  match account with
  | .left =>
      cases again
      exact ⟨rfl, rfl⟩
  | .past missing =>
      cases again with
      | past => exact ⟨rfl, rfl⟩
      | plain found | calling found => cases missing.symm.trans found
  | .plain found silent acts led rest =>
      cases again with
      | past missing => cases missing.symm.trans found
      | calling alsoFound calls =>
          cases found.symm.trans alsoFound
          cases silent.symm.trans calls
      | plain alsoFound _ alsoActs alsoLed alsoRest =>
          cases found.symm.trans alsoFound
          cases acts.symm.trans alsoActs
          cases led.symm.trans alsoLed
          obtain ⟨rfl, rfl⟩ := rest.unique alsoRest
          exact ⟨rfl, rfl⟩
  | .calling found calls answered acts led rest =>
      cases again with
      | past missing => cases missing.symm.trans found
      | plain alsoFound silent =>
          cases found.symm.trans alsoFound
          cases silent.symm.trans calls
      | calling alsoFound alsoCalls alsoAnswered alsoActs alsoLed alsoRest =>
          cases found.symm.trans alsoFound
          cases calls.symm.trans alsoCalls
          obtain ⟨rfl, rfl⟩ := answered.unique alsoAnswered
          cases acts.symm.trans alsoActs
          cases led.symm.trans alsoLed
          obtain ⟨rfl, rfl⟩ := rest.unique alsoRest
          exact ⟨rfl, rfl⟩
termination_by structural account

end

end Unique

/-! ## Cycles of an account -/

/-- The cycles of the kinds of some instructions. -/
def totalCycles (performed : List Instruction) : Nat :=
  (performed.map fun instruction => instruction.kind.cycles).sum

@[simp] theorem totalCycles_cons (instruction : Instruction) (performed : List Instruction) :
    totalCycles (instruction :: performed) = instruction.kind.cycles + totalCycles performed :=
  rfl

@[simp] theorem totalCycles_append (first second : List Instruction) :
    totalCycles (first ++ second) = totalCycles first + totalCycles second := by
  simp [totalCycles]

/-- A way of running functions replies with the result and the cycles of an account. -/
def Argument.Runner.Metered (registry : Registry) (run : Argument.Runner) : Prop :=
  ∀ callee arguments reply, run callee arguments = .done reply → ∃ last performed,
    callee.Accounts registry (some 0) (Store.bind (fun _ => 0) (callee.inputs.zip arguments)) last performed ∧
      reply.value = last .result ∧ reply.cycles = UInt64.ofNat (totalCycles performed)

namespace Argument

variable {registry : Registry} {run : Runner}

mutual

theorem accounts_of_evaluate (metered : run.Metered registry) (values : Values) :
    (argument : Argument) → {reply : Reply} → argument.evaluate registry run values = .done reply →
    ∃ performed, argument.Accounts registry values.value reply.value performed ∧
      reply.cycles = UInt64.ofNat (totalCycles performed)
  | .var name, reply, done => by
      cases done
      exact ⟨[], .var, rfl⟩
  | .call function arguments, reply, done => by
      simp only [evaluate] at done
      cases found : registry[function]? with
      | none =>
          simp only [found] at done
          cases done
      | some callee =>
          simp only [found] at done
          by_cases arity : callee.inputs.length = arguments.length
          · simp only [if_pos arity] at done
            obtain ⟨⟨inputs, spent⟩, evaluated, called⟩ := Outcome.bind_done done
            obtain ⟨answer, ran, rfl⟩ := Outcome.map_done called
            obtain ⟨before, accounts, charged⟩ := accountsAll_of_evaluateAll metered values arguments evaluated
            obtain ⟨last, body, account, yields, counted⟩ := metered callee inputs answer ran
            refine ⟨before ++ body, .call found arity accounts account yields, ?_⟩
            simp only [charged, counted, totalCycles_append, UInt64.ofNat_add]
          · simp only [if_neg arity] at done
            cases done

theorem accountsAll_of_evaluateAll (metered : run.Metered registry) (values : Values) :
    (arguments : List Argument) → {inputs : List UInt64} → {spent : UInt64} →
    evaluateAll registry run values arguments = .done (inputs, spent) →
    ∃ performed, AccountsAll registry values.value arguments inputs performed ∧
      spent = UInt64.ofNat (totalCycles performed)
  | [], inputs, spent, done => by
      cases done
      exact ⟨[], .nil, rfl⟩
  | argument :: rest, inputs, spent, done => by
      simp only [evaluateAll] at done
      obtain ⟨reply, first, others⟩ := Outcome.bind_done done
      obtain ⟨⟨values', later⟩, evaluated, same⟩ := Outcome.map_done others
      cases same
      obtain ⟨performed, account, charged⟩ := accounts_of_evaluate metered values argument first
      obtain ⟨performedLater, accounts, chargedLater⟩ :=
        accountsAll_of_evaluateAll metered values rest evaluated
      refine ⟨performed ++ performedLater, .cons account accounts, ?_⟩
      simp only [charged, chargedLater, totalCycles_append, UInt64.ofNat_add]

end

end Argument

/-! ## Steps and runs -/

/-- Where the run goes on depends on the labels of a state only. -/
theorem State.destination_of_labels {state other : State} (same : other.labels = state.labels)
    (position : Nat) (flow : Flow) : other.destination position flow = state.destination position flow := by
  cases flow with
  | next => rfl
  | goto target =>
      cases target with
      | empty | exit => rfl
      | named index => simp only [destination, resolve?, same]

namespace Operation

variable {invoke : Call → Outcome Reply} {values : Values} {operation : Operation} {effect : Effect}

theorem execute_silent (silent : operation.call? = none)
    (executed : operation.execute invoke values = .done effect) :
    operation.effect 0 values.value = (effect.flow, effect.values.value) ∧
      effect.cycles = UInt64.ofNat operation.kind.cycles := by
  obtain ⟨other, again, acts, charged⟩ := execute_of_silent silent invoke values
  cases executed.symm.trans again
  exact ⟨acts, charged⟩

theorem execute_calling {call : Call} (calls : operation.call? = some call)
    (executed : operation.execute invoke values = .done effect) :
    ∃ reply, invoke call = .done reply ∧
      operation.effect reply.value values.value = (effect.flow, effect.values.value) ∧
      effect.cycles = UInt64.ofNat operation.kind.cycles + reply.cycles := by
  obtain ⟨applied, done, rfl⟩ := Outcome.map_done executed
  cases operation with
  | quote subject called | jumpEqualFunction subject called target =>
      cases calls
      obtain ⟨reply, replied, rfl⟩ := Outcome.map_done done
      exact ⟨reply, replied, by simp [Operation.effect, Values.value_insert], rfl⟩
  | _ => cases calls

end Operation

namespace Routine

variable {registry : Registry} {run : Argument.Runner} {routine : Routine}

/-- An executed instruction goes in front of the account of what follows, with the account of its call. -/
theorem accounts_of_execute (metered : run.Metered registry) {position : Nat} {values : Values}
    {instruction : Instruction} {effect : Effect} {next : Option Nat} {last : Store}
    {later : List Instruction} (found : routine.instruction? position = some instruction)
    (executed : instruction.operation.execute
      (fun call => call.toArgument.evaluate registry run values) values = .done effect)
    (led : routine.state.destination position effect.flow = .ok next)
    (rest : routine.Accounts registry next effect.values.value last later) :
    ∃ inner, routine.Accounts registry (some position) values.value last (instruction :: (inner ++ later)) ∧
      effect.cycles = UInt64.ofNat (instruction.kind.cycles + totalCycles inner) := by
  cases calls : instruction.operation.call? with
  | none =>
      obtain ⟨acts, charged⟩ := Operation.execute_silent calls executed
      exact ⟨[], .plain found calls acts led rest, charged⟩
  | some call =>
      obtain ⟨reply, replied, acts, charged⟩ := Operation.execute_calling calls executed
      obtain ⟨inner, account, counted⟩ := Argument.accounts_of_evaluate metered values call.toArgument replied
      refine ⟨inner, .calling found calls account acts led rest, ?_⟩
      simp only [charged, counted, UInt64.ofNat_add]
      rfl

/-- A run that goes on from a point of the routine has an account, and its cycles are added to the counter. -/
theorem accounts_of_finish {fuel : Nat} {current ended : Routine} (same : routine.SameCode current)
    (done : current.finish registry fuel = (ended, .done ())) :
    ∃ performed, routine.Accounts registry current.place current.state.values.value
        ended.state.values.value performed ∧
      ended.state.cycles = current.state.cycles + UInt64.ofNat (totalCycles performed) := by
  induction fuel generalizing routine current ended with
  | zero => cases done
  | succ fuel ih =>
      -- A call runs with what is left of the fuel, so the hypothesis covers the called functions too.
      have metered : Argument.Runner.Metered registry (replyOf (finish registry fuel)) := by
        intro callee arguments reply replied
        obtain ⟨last, finished, rfl⟩ := replyOf_done.mp replied
        obtain ⟨performed, account, counted⟩ := ih (SameCode.start callee arguments) finished
        rw [value_start] at account
        refine ⟨_, performed, account, rfl, counted.trans ?_⟩
        exact UInt64.zero_add _
      have code (position : Nat) : current.instruction? position = routine.instruction? position := by
        simp only [instruction?, node?, same.sequence, same.forest]
      have outcome := stepped registry (replyOf (finish registry fuel)) current
      rcases finish_succ_done done with step | ⟨next, position, cycles, step, rest⟩
      · rw [step] at outcome
        cases outcome with
        | halted stopped =>
            refine ⟨[], ?_, (UInt64.add_zero _).symm⟩
            simp only [place, stopped, if_true]
            exact .left
        | past going missing =>
            refine ⟨[], ?_, (UInt64.add_zero _).symm⟩
            rw [place_of_going going]
            exact .past ((code _).symm.trans missing)
      · rw [step] at outcome
        cases outcome with
        | @executed instruction effect middle going found tried led =>
            obtain ⟨later, account, counted⟩ := ih (same.trans (moved_sameCode current effect middle)) rest
            rw [place_moved going, moved_values] at account
            rw [code] at found
            rw [State.destination_of_labels same.labels] at led
            obtain ⟨inner, whole, charged⟩ := accounts_of_execute metered found tried led account
            refine ⟨instruction :: (inner ++ later), ?_, ?_⟩
            · rw [place_of_going going]
              exact whole
            · rw [counted, moved_cycles, charged]
              simp only [totalCycles_cons, totalCycles_append, UInt64.ofNat_add, UInt64.add_assoc]

/-- A run that comes to its end has exactly one account. Its counter shows the cycles of all instructions of
the account, those executed in nested calls included, as far as a counter of 64 bits can. -/
theorem metering_exact {registry : Registry} {routine ended : Routine} {fuel : Nat}
    {arguments : List UInt64} {value : UInt64}
    (ran : routine.run registry fuel arguments = (ended, .done value)) :
    ∃ performed,
      (∀ last other, routine.Accounts registry (some 0)
          (Store.bind (fun _ => 0) (routine.inputs.zip arguments)) last other ↔
        last = ended.state.values.value ∧ other = performed) ∧
      ended.state.cycles.toNat = totalCycles performed % UInt64.size := by
  obtain ⟨performed, account, counted⟩ :=
    accounts_of_finish (SameCode.start routine arguments) (run_done_iff.mp ran).1
  rw [value_start] at account
  have total : ended.state.cycles = UInt64.ofNat (totalCycles performed) := counted.trans (UInt64.zero_add _)
  refine ⟨performed, fun last other => ⟨fun again => ?_, ?_⟩, ?_⟩
  · obtain ⟨rfl, rfl⟩ := account.unique again
    exact ⟨rfl, rfl⟩
  · rintro ⟨rfl, rfl⟩
    exact account
  · rw [total, UInt64.toNat_ofNat']

end Routine

/-- A function that calls itself with one less until it comes to 0. -/
def countingDown : Registry :=
  .ofSource ⟨⟨"Main", []⟩,
    [⟨"Down", [.plain (.jumpZero (.input 1) .exit), .plain (.decrease (.input 1)),
      .plain (.quote .result ⟨"Down", [.var (.input 1)]⟩), .plain (.increase .result)]⟩]⟩

def countsDownTwice : Routine :=
  .ofDefinition ⟨"Main", [.plain (.quote .result ⟨"Down", [.call "Down" [.var (.input 1)]]⟩)]⟩

/-- Each of the two calls from 2 costs 20 cycles, in three invocations. -/
theorem Routine.countsDownTwice_metering_exact :
    ∃ ended performed, countsDownTwice.run countingDown 20 [2] = (ended, .done 2) ∧
      countsDownTwice.Accounts countingDown (some 0)
        (Store.bind (fun _ => 0) (countsDownTwice.inputs.zip [2])) ended.state.values.value performed ∧
      ended.state.cycles = 45 ∧ totalCycles performed % UInt64.size = 45 := by
  have outcome : (countsDownTwice.run countingDown 20 [2]).2 = .done 2 ∧
      (countsDownTwice.run countingDown 20 [2]).1.state.cycles = 45 := by
    decide +kernel
  obtain ⟨ended, ran, cycles⟩ : ∃ ended, countsDownTwice.run countingDown 20 [2] = (ended, .done 2) ∧
      ended.state.cycles = 45 := by
    generalize countsDownTwice.run countingDown 20 [2] = result at outcome
    obtain ⟨ended, _⟩ := result
    obtain ⟨rfl, cycles⟩ := outcome
    exact ⟨ended, rfl, cycles⟩
  obtain ⟨performed, exactly, counted⟩ := metering_exact ran
  rw [cycles] at counted
  exact ⟨ended, performed, ran, (exactly _ performed).mpr ⟨rfl, rfl⟩, cycles, counted.symm⟩

end CounterMachine
