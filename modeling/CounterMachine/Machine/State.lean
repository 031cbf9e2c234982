import CounterMachine.Machine.Names
import Std.Data.ExtTreeMap
set_option autoImplicit false

/-!
# States

The state of a function holds the values of its variables, the history of the current run, the place of the
run, the positions of the labels and the supply of names. Starting a run keeps the labels and the names.
-/

namespace CounterMachine

/-- Values of variables. A variable without a value counts as 0. -/
abbrev Values := Std.ExtTreeMap Variable UInt64

namespace Values

def value (values : Values) (name : Variable) : UInt64 :=
  values.getD name 0

/-- The values as text: names and values in the order of the variables. -/
def render (values : Values) : String :=
  " ".intercalate (values.toList.map fun entry => entry.1.render ++ "=" ++ entry.2.toNat.repr)

end Values

/-- A record of a state after a step. -/
structure Snapshot where
  /-- 0 at the start of a run, then one more for each executed instruction. -/
  step : Nat
  /-- The position of the executed instruction; none at the start. -/
  position : Option Nat
  cycles : UInt64
  values : Values

/-- The state of a function. -/
structure State where
  values : Values := ∅
  history : Array Snapshot := #[]
  /-- The positions that labels lead to. -/
  labels : Std.ExtTreeMap Label Nat := ∅
  names : Names := {}
  /-- The position of the next instruction. -/
  position : Nat := 0
  cycles : UInt64 := 0
  halted : Bool := false

namespace State

def value (state : State) (name : Variable) : UInt64 :=
  state.values.value name

def set (state : State) (name : Variable) (value : UInt64) : State :=
  { state with values := state.values.insert name value }

/-- The values at the start of a run: the inputs take the arguments in order, every other variable is 0.
Arguments without an input are ignored. -/
def initialValues (vars : VariableSet) (inputs : List Variable) (arguments : List UInt64) : Values :=
  (Std.ExtTreeMap.ofList (vars.toList.map fun name => (name, (0 : UInt64)))).insertMany
    (inputs.zip arguments)

def seed (state : State) (vars : VariableSet) (inputs : List Variable) (arguments : List UInt64) :
    State :=
  let values := initialValues vars inputs arguments
  { state with
    values
    history := #[{ step := 0, position := none, cycles := 0, values }]
    position := 0
    cycles := 0
    halted := false }

/-- Starts a run without arguments, and the supply of names anew. -/
def reset (state : State) (vars : VariableSet) : State :=
  { state with names := {} }.seed vars [] []

/-- Forgets the variables outside a set. -/
def retain (state : State) (kept : VariableSet) : State :=
  { state with values := state.values.filter fun name _ => kept.contains name }

def halt (state : State) : State :=
  { state with halted := true }

/-- Charges cycles for the instruction at a position, moves on, and records the state. -/
def advance (state : State) (position next : Nat) (spent : UInt64) : State :=
  let cycles := state.cycles + spent
  { state with
    cycles
    position := next
    history := state.history.push
      { step := state.history.size, position := some position, cycles, values := state.values } }

def resolve? (state : State) (label : Label) : Option Nat :=
  state.labels[label]?

end State

end CounterMachine
