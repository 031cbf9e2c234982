import CounterMachine.Proofs.Courses
import CounterMachine.Proofs.Linking
set_option autoImplicit false

/-!
# Runs do not depend on the past

What was executed, reset or restored before a run leaves no trace in it. Two routines of one definition that
have the same code now have the same labels, inputs and variables, so a start brings them to the same point.
From there they go on side by side, even if their calls are answered by functions with different pasts.
-/

namespace CounterMachine

/-! ## Routines and registries that match -/

/-- Two routines of the same code, which start with the same labels, inputs and variables. -/
structure Routine.Matches (routine other : Routine) : Prop where
  code : ∀ position, other.instruction? position = routine.instruction? position
  inputs : other.inputs = routine.inputs
  vars : other.varsInUse = routine.varsInUse
  labels : other.state.labels = routine.state.labels

/-- What a routine starts with is determined by its definition and its current code. -/
theorem Definition.Becomes.matches {definition : Definition} {allowed : Action → Prop}
    {routine other : Routine} (becomes : definition.Becomes allowed routine)
    (alsoBecomes : definition.Becomes allowed other) (code : other.instructions = routine.instructions) :
    routine.Matches other where
  code := by
    intro position
    simp only [becomes.consistent.instruction?_eq, alsoBecomes.consistent.instruction?_eq, code]
  inputs := alsoBecomes.consistent.inputs.trans becomes.consistent.inputs.symm
  vars := by
    simp only [Routine.varsInUse, becomes.inLine.sourceVars, alsoBecomes.inLine.sourceVars, code]
  labels := by
    simp only [becomes.inLine.labels, alsoBecomes.inLine.labels, Routine.labelPositions, code]

namespace Registry

/-- Two registries have matching functions under the same names. -/
def Matches (left right : Registry) : Prop :=
  ∀ name : String, Option.Rel Routine.Matches left[name]? right[name]?

/-- Two registries have the same names, and under each of them functions of one definition with the same
current code. -/
def SameCode (left right : Registry) : Prop :=
  ∀ name : String, Option.Rel (fun callee copy => ∃ definition : Definition,
    definition.Becomes (fun _ => True) callee ∧ definition.Becomes (fun _ => True) copy ∧
      copy.instructions = callee.instructions) left[name]? right[name]?

theorem SameCode.matches {left right : Registry} (same : left.SameCode right) : left.Matches right := by
  intro name
  have found := same name
  generalize left[name]? = callee at found ⊢
  generalize right[name]? = copy at found ⊢
  cases found with
  | none => exact .none
  | some related =>
      obtain ⟨definition, becomes, alsoBecomes, code⟩ := related
      exact .some (becomes.matches alsoBecomes code)

end Registry

/-! ## Calls -/

/-- Two ways of running functions give the same reply for functions that match. -/
def Argument.Runner.Matches (run other : Argument.Runner) : Prop :=
  ∀ {callee copy : Routine}, callee.Matches copy → ∀ arguments, run callee arguments = other copy arguments

namespace Argument

variable {left right : Registry} {run other : Runner}

mutual

theorem evaluate_matched (functions : left.Matches right) (replies : run.Matches other) (values : Values) :
    (argument : Argument) → argument.evaluate left run values = argument.evaluate right other values
  | .var name => rfl
  | .call function arguments => by
      simp only [evaluate, evaluateAll_matched functions replies values arguments]
      have found := functions function
      generalize left[function]? = callee at found ⊢
      generalize right[function]? = copy at found ⊢
      cases found with
      | none => rfl
      | some matched => simp only [matched.inputs, replies matched]

theorem evaluateAll_matched (functions : left.Matches right) (replies : run.Matches other)
    (values : Values) : (arguments : List Argument) →
    evaluateAll left run values arguments = evaluateAll right other values arguments
  | [] => rfl
  | argument :: rest => by
      simp only [evaluateAll, evaluate_matched functions replies values argument,
        evaluateAll_matched functions replies values rest]

end

end Argument

/-! ## Runs side by side -/

namespace Routine

/-- Two routines of the same code at the same point of their runs. Only their supplies of names may differ. -/
structure Abreast (routine other : Routine) : Prop where
  code : ∀ position, other.instruction? position = routine.instruction? position
  state : other.state = { routine.state with names := other.state.names }

variable {left right : Registry} {run otherRun : Argument.Runner} {routine other : Routine}

/-- A start brings routines that match to the same point. -/
theorem Matches.start (matched : routine.Matches other) (arguments : List UInt64) :
    (routine.start arguments).Abreast (other.start arguments) where
  code := matched.code
  state := by
    simp only [Routine.start, matched.vars, matched.inputs, State.seed, matched.labels]

namespace Abreast

theorem halted (abreast : routine.Abreast other) : other.state.halted = routine.state.halted := by
  rw [abreast.state]

theorem position (abreast : routine.Abreast other) : other.state.position = routine.state.position := by
  rw [abreast.state]

theorem values (abreast : routine.Abreast other) : other.state.values = routine.state.values := by
  rw [abreast.state]

theorem destination (abreast : routine.Abreast other) (position : Nat) (flow : Flow) :
    other.state.destination position flow = routine.state.destination position flow := by
  rw [abreast.state]
  rfl

theorem halt (abreast : routine.Abreast other) :
    Abreast { routine with state := routine.state.halt } { other with state := other.state.halt } where
  code := abreast.code
  state := by
    dsimp only
    rw [abreast.state]
    rfl

theorem moved (abreast : routine.Abreast other) (effect : Effect) (next : Option Nat) :
    (routine.moved effect next).Abreast (other.moved effect next) where
  code := abreast.code
  state := by
    simp only [Routine.moved]
    rw [abreast.state]
    cases next <;> rfl

theorem attempt (abreast : routine.Abreast other) (functions : left.Matches right)
    (replies : run.Matches otherRun) (instruction : Instruction) :
    other.attempt right otherRun instruction = routine.attempt left run instruction := by
  simp only [Routine.attempt, abreast.values, Argument.evaluate_matched functions replies]

theorem stepWith (abreast : routine.Abreast other) (functions : left.Matches right)
    (replies : run.Matches otherRun) :
    (other.stepWith right otherRun).2 = (routine.stepWith left run).2 ∧
      (routine.stepWith left run).1.Abreast (other.stepWith right otherRun).1 := by
  have there : other.instruction? other.state.position = routine.instruction? routine.state.position := by
    rw [abreast.code, abreast.position]
  cases going : routine.state.halted with
  | true =>
      rw [stepWith_halted going, stepWith_halted (abreast.halted.trans going)]
      exact ⟨rfl, abreast⟩
  | false =>
      cases found : routine.instruction? routine.state.position with
      | none =>
          rw [stepWith_past going found, stepWith_past (abreast.halted.trans going) (there.trans found)]
          exact ⟨rfl, abreast.halt⟩
      | some instruction =>
          rw [stepWith_found going found, stepWith_found (abreast.halted.trans going) (there.trans found)]
          simp only [abreast.attempt functions replies, abreast.position, abreast.destination]
          cases routine.attempt left run instruction with
          | failed failure => exact ⟨rfl, abreast⟩
          | unfinished => exact ⟨rfl, abreast⟩
          | done effect =>
              dsimp only
              cases routine.state.destination routine.state.position effect.flow with
              | error failure => exact ⟨rfl, abreast⟩
              | ok next => exact ⟨rfl, abreast.moved effect next⟩

/-- Runs that end side by side give the same reply. -/
theorem replies {finish otherFinish : Routine → Routine × Outcome Unit}
    (ends : ∀ {routine other : Routine}, routine.Abreast other →
      (otherFinish other).2 = (finish routine).2 ∧ (finish routine).1.Abreast (otherFinish other).1) :
    Argument.Runner.Matches (replyOf finish) (replyOf otherFinish) := by
  intro callee copy matched arguments
  obtain ⟨same, ended⟩ := ends (matched.start arguments)
  simp only [replyOf]
  generalize finish (callee.start arguments) = first at same ended ⊢
  generalize otherFinish (copy.start arguments) = second at same ended ⊢
  obtain ⟨last, outcome⟩ := first
  obtain ⟨otherLast, _⟩ := second
  cases same
  cases outcome with
  | failed failure => rfl
  | unfinished => rfl
  | done =>
      have state : otherLast.state = { last.state with names := otherLast.state.names } := ended.state
      simp only [result, State.value]
      rw [state]

theorem finish (abreast : routine.Abreast other) (functions : left.Matches right) (fuel : Nat) :
    (other.finish right fuel).2 = (routine.finish left fuel).2 ∧
      (routine.finish left fuel).1.Abreast (other.finish right fuel).1 := by
  induction fuel generalizing routine other with
  | zero => exact ⟨rfl, abreast⟩
  | succ fuel ih =>
      obtain ⟨same, after⟩ := abreast.stepWith functions (replies ih)
      simp only [Routine.finish]
      generalize routine.stepWith left (replyOf (Routine.finish left fuel)) = step at same after ⊢
      generalize other.stepWith right (replyOf (Routine.finish right fuel)) = otherStep at same after ⊢
      obtain ⟨next, outcome⟩ := step
      obtain ⟨otherNext, _⟩ := otherStep
      cases same
      rcases outcome with (⟨position, cycles⟩ | _) | failure | _
      · exact ih after
      · exact ⟨rfl, after⟩
      · exact ⟨rfl, after⟩
      · exact ⟨rfl, after⟩

theorem step (abreast : routine.Abreast other) (functions : left.Matches right) (fuel : Nat) :
    (other.step right fuel).2 = (routine.step left fuel).2 ∧
      (routine.step left fuel).1.Abreast (other.step right fuel).1 :=
  abreast.stepWith functions (replies fun both => both.finish functions fuel)

theorem course (abreast : routine.Abreast other) (functions : left.Matches right) (fuels : List Nat) :
    (other.course right fuels).2 = (routine.course left fuels).2 ∧
      (routine.course left fuels).1.Abreast (other.course right fuels).1 := by
  induction fuels generalizing routine other with
  | nil => exact ⟨rfl, abreast⟩
  | cons fuel rest ih =>
      obtain ⟨same, after⟩ := abreast.step functions fuel
      obtain ⟨sameLater, last⟩ := ih after
      simp only [course_cons, same, sameLater, true_and]
      exact last

end Abreast

/-- The labels of a routine lead to the first places where they are attached now, whatever was done to it.
Two routines of one definition that have the same code now take the same steps after a start, with the same
history, values and cycles, whatever was done to each of them and to the functions that they call. -/
theorem runs_leak_nothing {definition : Definition} {routine : Routine}
    (becomes : definition.Becomes (fun _ => True) routine) :
    (∀ label position, routine.state.labels[label]? = some position ↔ label ≠ .empty ∧
      routine.instructions.findIdx? (fun instruction => instruction.label = label) = some position) ∧
    ∀ other, definition.Becomes (fun _ => True) other → other.instructions = routine.instructions →
      ∀ left right : Registry, left.SameCode right → ∀ (arguments : List UInt64) (fuels : List Nat),
        let first := (routine.start arguments).course left fuels
        let second := (other.start arguments).course right fuels
        second.2 = first.2 ∧ second.1.state = { first.1.state with names := second.1.state.names } := by
  constructor
  · intro label position
    rw [becomes.inLine.labels]
    exact labelPositions_eq_some
  · intro other alsoBecomes code left right same arguments fuels
    have started := (becomes.matches alsoBecomes code).start arguments
    obtain ⟨outcomes, ended⟩ := started.course same.matches fuels
    exact ⟨outcomes, ended.state⟩

end Routine

def successor : Definition :=
  ⟨"Next", [.plain (.assignment .result (.input 1)), .plain (.increase .result)]⟩

def callsSuccessor : Definition :=
  ⟨"Main", [.plain (.zeroVariable .result), .plain (.quote .result ⟨"Next", [.var (.input 1)]⟩)]⟩

/-- The function that is called as it is defined. -/
def freshNext : Registry :=
  .add ∅ (.ofDefinition successor)

/-- The function that is called after it was run and reset. -/
def usedNext : Registry :=
  .add ∅ (((Routine.ofDefinition successor).act ∅ (.run 5 [7])).act ∅ .reset)

theorem freshNext_sameCode_usedNext : freshNext.SameCode usedNext := by
  intro name
  have becomes : successor.Becomes (fun _ => True)
      (((Routine.ofDefinition successor).act ∅ (.run 5 [7])).act ∅ .reset) :=
    .act (.act .source trivial ∅) trivial ∅
  have found : ∀ callee : Routine, callee.name = "Next" →
      (Registry.add ∅ callee)[name]? = if "Next" = name then some callee else none := by
    intro callee named
    simp only [Registry.add, named, Std.ExtTreeMap.getElem?_insert, Std.LawfulEqCmp.compare_eq_iff_eq,
      Std.ExtTreeMap.getElem?_empty]
  rw [freshNext, usedNext, found _ rfl, found _ (by decide +kernel)]
  split
  · exact .some ⟨successor, .source, becomes, by decide +kernel⟩
  · exact .none

/-- A routine that was expanded, run, collapsed and restored has other names to give out, but it runs like a
fresh one. -/
theorem Routine.callsSuccessor_runs_leak_nothing :
    let routine := ofDefinition callsSuccessor
    let expanded := (routine.act freshNext (.expand 1)).act freshNext (.run 20 [4])
    let other := (expanded.act freshNext .collapse).act freshNext .restoreVars
    other.state.names ≠ routine.state.names ∧
    ((routine.start [3]).course freshNext [9, 9, 9]).2 =
      [.done (.executed 0 1), .done (.executed 1 10), .done .halted] ∧
    ((other.start [3]).course usedNext [9, 9, 9]).2 = ((routine.start [3]).course freshNext [9, 9, 9]).2 := by
  intro routine expanded other
  have becomes : callsSuccessor.Becomes (fun _ => True) routine := .source
  have alsoBecomes : callsSuccessor.Becomes (fun _ => True) other :=
    .act (.act (.act (.act .source trivial freshNext) trivial freshNext) trivial freshNext) trivial freshNext
  have code : other.instructions = routine.instructions := by decide +kernel
  obtain ⟨_, runs⟩ := runs_leak_nothing becomes
  obtain ⟨outcomes, _⟩ :=
    runs other alsoBecomes code freshNext usedNext freshNext_sameCode_usedNext [3] [9, 9, 9]
  exact ⟨by decide +kernel, by decide +kernel, outcomes⟩

end CounterMachine
