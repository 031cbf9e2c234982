import CounterMachine.Machine.Execution
import CounterMachine.Routine
set_option autoImplicit false

/-!
# Runs

A step executes the instruction at the current position. A run takes steps until the routine halts. A call
runs a copy of the called function on the values of the arguments, which are evaluated from left to right;
the cycles of the copy are charged to the caller. Fuel bounds the number of steps, and what is left of it
bounds the steps of every call.
-/

namespace CounterMachine

inductive Step where
  | executed (position : Nat) (cycles : UInt64)
  | halted
deriving DecidableEq

/-- Why no more steps are taken. -/
inductive Pause where
  | halted
  | limit
deriving DecidableEq

namespace Argument

/-- How a function is run on arguments. -/
abbrev Runner := Routine → List UInt64 → Outcome Reply

mutual

/-- The value of an argument and the cycles that were spent on it. -/
def evaluate (registry : Registry) (run : Runner) (values : Values) : Argument → Outcome Reply
  | .var name => .done ⟨values.value name, 0⟩
  | .call function arguments =>
      match registry[function]? with
      | none => .failed (.unknownFunction function)
      | some callee =>
          if callee.inputs.length = arguments.length then
            (evaluateAll registry run values arguments).bind fun (inputs, spent) =>
              (run callee inputs).map fun reply => { reply with cycles := spent + reply.cycles }
          else .failed (.argumentCount function callee.inputs.length arguments.length)

def evaluateAll (registry : Registry) (run : Runner) (values : Values) :
    List Argument → Outcome (List UInt64 × UInt64)
  | [] => .done ([], 0)
  | argument :: rest =>
      (evaluate registry run values argument).bind fun reply =>
        (evaluateAll registry run values rest).map fun (inputs, spent) =>
          (reply.value :: inputs, reply.cycles + spent)

end

end Argument

namespace Routine

/-- Executes the instruction at the current position. A routine halts when it runs past its last
instruction or jumps to `EXIT`. -/
def stepWith (registry : Registry) (run : Argument.Runner) (routine : Routine) :
    Routine × Outcome Step :=
  if routine.state.halted then (routine, .done .halted)
  else
    let position := routine.state.position
    match routine.instruction? position with
    | none => ({ routine with state := routine.state.halt }, .done .halted)
    | some instruction =>
        let values := routine.state.values
        let invoke (call : Call) := call.toArgument.evaluate registry run values
        match instruction.operation.execute invoke values with
        | .failed failure => (routine, .failed failure)
        | .unfinished => (routine, .unfinished)
        | .done effect =>
            match routine.state.destination position effect.flow with
            | .error failure => (routine, .failed failure)
            | .ok destination =>
                let state := { routine.state with values := effect.values }.advance
                  position (destination.getD (position + 1)) effect.cycles
                ({ routine with state := if destination.isSome then state else state.halt },
                  .done (.executed position effect.cycles))

/-- Starts a function and takes its reply when `finish` has brought it to its end. -/
def replyOf (finish : Routine → Routine × Outcome Unit) (callee : Routine)
    (arguments : List UInt64) : Outcome Reply :=
  match finish (callee.start arguments) with
  | (ended, .done _) => .done ⟨ended.result, ended.state.cycles⟩
  | (_, .failed failure) => .failed failure
  | (_, .unfinished) => .unfinished

/-- Takes steps until the routine halts, fails or runs out of fuel. The routine is returned as the last
step left it. -/
def finish (registry : Registry) : (fuel : Nat) → Routine → Routine × Outcome Unit
  | 0, routine => (routine, .unfinished)
  | fuel + 1, routine =>
      match routine.stepWith registry (replyOf (finish registry fuel)) with
      | (next, .done (.executed _ _)) => finish registry fuel next
      | (next, .done .halted) => (next, .done ())
      | (next, .failed failure) => (next, .failed failure)
      | (next, .unfinished) => (next, .unfinished)

/-- Executes the instruction at the current position; fuel is for the calls of the instruction. -/
def step (registry : Registry) (fuel : Nat) (routine : Routine) : Routine × Outcome Step :=
  routine.stepWith registry (replyOf (finish registry fuel))

/-- Runs a routine from its first instruction until it halts, and yields its result. -/
def run (registry : Registry) (fuel : Nat) (routine : Routine) (arguments : List UInt64) :
    Routine × Outcome UInt64 :=
  match finish registry fuel (routine.start arguments) with
  | (ended, .done _) => (ended, .done ended.result)
  | (ended, .failed failure) => (ended, .failed failure)
  | (ended, .unfinished) => (ended, .unfinished)

/-- Takes at most `limit` steps, as long as they execute an instruction. The number of executed
instructions, counted on from `executed`, is returned with the reason why no more steps were taken. -/
def drive (registry : Registry) (fuel : Nat) :
    (limit : Nat) → (executed : Nat) → Routine → Routine × Nat × Outcome Pause
  | 0, executed, routine => (routine, executed, .done .limit)
  | limit + 1, executed, routine =>
      match routine.step registry fuel with
      | (next, .done (.executed _ _)) => drive registry fuel limit (executed + 1) next
      | (next, .done .halted) => (next, executed, .done .halted)
      | (next, .failed failure) => (next, executed, .failed failure)
      | (next, .unfinished) => (next, executed, .unfinished)

/-- Whether the next step would execute nothing. -/
def isFinished (routine : Routine) : Bool :=
  routine.state.halted || routine.length ≤ routine.state.position

/-- Takes steps until the routine halts, or until the limit is reached after a step while there is still
something to execute. The number of executed instructions is counted on from `executed`. -/
def driveUntil (registry : Registry) (limit : Option Nat) :
    (fuel : Nat) → (executed : Nat) → Routine → Routine × Nat × Outcome Pause
  | 0, executed, routine => (routine, executed, .unfinished)
  | fuel + 1, executed, routine =>
      match routine.step registry fuel with
      | (next, .done (.executed _ _)) =>
          if limit.any (· ≤ executed + 1) && !next.isFinished then
            (next, executed + 1, .done .limit)
          else driveUntil registry limit fuel (executed + 1) next
      | (next, .done .halted) => (next, executed, .done .halted)
      | (next, .failed failure) => (next, executed, .failed failure)
      | (next, .unfinished) => (next, executed, .unfinished)

/-- Takes a number of steps; a failure is the last outcome. -/
def steps (registry : Registry) (fuel : Nat) :
    (count : Nat) → Routine → Array (Outcome Step) → Routine × Array (Outcome Step)
  | 0, routine, outcomes => (routine, outcomes)
  | count + 1, routine, outcomes =>
      match routine.step registry fuel with
      | (next, .done outcome) => steps registry fuel count next (outcomes.push (.done outcome))
      | (next, outcome) => (next, outcomes.push outcome)

end Routine

/-- Executes an instruction on a state; nothing but the values may change. -/
def State.execute (registry : Registry) (fuel : Nat) (state : State) (operation : Operation) :
    State × Outcome (Flow × UInt64) :=
  let invoke (call : Call) :=
    call.toArgument.evaluate registry (Routine.replyOf (Routine.finish registry fuel)) state.values
  match operation.execute invoke state.values with
  | .done effect => ({ state with values := effect.values }, .done (effect.flow, effect.cycles))
  | .failed failure => (state, .failed failure)
  | .unfinished => (state, .unfinished)

end CounterMachine
