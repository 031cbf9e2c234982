import CounterMachine.Routine.Run
set_option autoImplicit false

/-!
# Runs in place

An operation can be executed on the state itself. It writes a value as soon as the value is there, and the
target of a jump is looked up afterwards, so a jump that leads nowhere is noticed when the operation has been
executed already. Nothing that was written is taken back. A call runs a copy of the called function in place,
and the copy is dropped when the call ends.
-/

namespace CounterMachine

namespace State

/-- Does what an operation does, on the state itself. The flow is returned with the cycles spent on a call. -/
def applyInPlace (invoke : State → Call → Outcome Reply) (state : State) :
    Operation → State × Outcome (Flow × UInt64)
  | .increase subject => (state.set subject (increased (state.value subject)), .done (.next, 0))
  | .decrease subject => (state.set subject (decreased (state.value subject)), .done (.next, 0))
  | .jumpNotZero subject target => (state, .done (.jumpIf (state.value subject ≠ 0) target, 0))
  | .neutral _ => (state, .done (.next, 0))
  | .zeroVariable subject => (state.set subject 0, .done (.next, 0))
  | .gotoLabel target => (state, .done (.goto target, 0))
  | .constantAssignment subject constant => (state.set subject constant, .done (.next, 0))
  | .assignment subject source => (state.set subject (state.value source), .done (.next, 0))
  | .jumpZero subject target => (state, .done (.jumpIf (state.value subject = 0) target, 0))
  | .jumpEqualConstant subject constant target =>
      (state, .done (.jumpIf (state.value subject = constant) target, 0))
  | .jumpEqualVariable subject other target =>
      (state, .done (.jumpIf (state.value subject = state.value other) target, 0))
  | .quote subject call =>
      match invoke state call with
      | .done reply => (state.set subject reply.value, .done (.next, reply.cycles))
      | .failed failure => (state, .failed failure)
      | .unfinished => (state, .unfinished)
  | .jumpEqualFunction subject call target =>
      match invoke state call with
      | .done reply =>
          (state, .done (.jumpIf (state.value subject = reply.value) target, reply.cycles))
      | .failed failure => (state, .failed failure)
      | .unfinished => (state, .unfinished)

/-- Executes an operation on the state itself: the cycles of its kind are added to those of its call. -/
def executeInPlace (invoke : State → Call → Outcome Reply) (state : State) (operation : Operation) :
    State × Outcome (Flow × UInt64) :=
  let (next, outcome) := state.applyInPlace invoke operation
  (next, outcome.map fun (flow, spent) => (flow, UInt64.ofNat operation.kind.cycles + spent))

end State

namespace Routine

/-- Executes the instruction at the current position. What it has written stays written, also if its jump
then leads nowhere. -/
def stepInPlaceWith (registry : Registry) (run : Argument.Runner) (routine : Routine) :
    Routine × Outcome Step :=
  if routine.state.halted then (routine, .done .halted)
  else
    let position := routine.state.position
    match routine.instruction? position with
    | none => ({ routine with state := routine.state.halt }, .done .halted)
    | some instruction =>
        let invoke (state : State) (call : Call) := call.toArgument.evaluate registry run state.values
        match routine.state.executeInPlace invoke instruction.operation with
        | (state, .failed failure) => ({ routine with state }, .failed failure)
        | (state, .unfinished) => ({ routine with state }, .unfinished)
        | (state, .done (flow, cycles)) =>
            match state.destination position flow with
            | .error failure => ({ routine with state }, .failed failure)
            | .ok destination =>
                let state := state.advance position (destination.getD (position + 1)) cycles
                ({ routine with state := if destination.isSome then state else state.halt },
                  .done (.executed position cycles))

/-- Takes steps in place until the routine halts, fails or runs out of fuel. -/
def finishInPlace (registry : Registry) : (fuel : Nat) → Routine → Routine × Outcome Unit
  | 0, routine => (routine, .unfinished)
  | fuel + 1, routine =>
      match routine.stepInPlaceWith registry (replyOf (finishInPlace registry fuel)) with
      | (next, .done (.executed _ _)) => finishInPlace registry fuel next
      | (next, .done .halted) => (next, .done ())
      | (next, .failed failure) => (next, .failed failure)
      | (next, .unfinished) => (next, .unfinished)

/-- A step in place, in which every call runs in place too; fuel is for the calls. -/
def stepInPlace (registry : Registry) (fuel : Nat) (routine : Routine) : Routine × Outcome Step :=
  routine.stepInPlaceWith registry (replyOf (finishInPlace registry fuel))

end Routine

/-- Executes an operation on the state itself, and its call in place; fuel is for the call. -/
def State.performInPlace (registry : Registry) (fuel : Nat) (state : State) (operation : Operation) :
    State × Outcome (Flow × UInt64) :=
  state.executeInPlace (fun state call => call.toArgument.evaluate registry
    (Routine.replyOf (Routine.finishInPlace registry fuel)) state.values) operation

end CounterMachine
