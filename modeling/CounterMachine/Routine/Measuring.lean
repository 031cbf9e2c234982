import CounterMachine.Routine.Degree
set_option autoImplicit false

/-!
# Measuring degrees

The degree of an instruction can be measured by following its call into the body of the called function. The
names of the functions that are under way are kept on one stack, which is common to the whole work: a name is
put there before the body of its function is measured and taken off afterwards. A function whose name is on
the stack counts 0, and so does one that the registry does not have. Fuel bounds how many bodies can be under
way at a time; the stack does not count for it.
-/

namespace CounterMachine

/-- Work on a stack of names, the latest first; none if the work does not come to an end. -/
abbrev Measuring := StateT (List String) Option

namespace Argument

mutual

/-- Measures the binding of an argument; `function` measures the body of a function. -/
def measure (function : String → Measuring Nat) : Argument → Measuring Nat
  | .var _ => return moveDegree
  | .call name arguments => do
      let body ← function name
      let bindings ← measureAll function arguments
      return 1 + max moveDegree (max body bindings)

def measureAll (function : String → Measuring Nat) : List Argument → Measuring Nat
  | [] => return 0
  | argument :: rest => do
      let first ← argument.measure function
      let others ← measureAll function rest
      return max first others

end

end Argument

section Bodies

variable (function : String → Measuring Nat)

/-- Measures the expansion of a call, the use of its result apart. -/
def Call.measure (call : Call) : Measuring Nat := do
  let body ← function call.function
  let bindings ← Argument.measureAll function call.arguments
  return max body bindings

def Operation.measure (operation : Operation) : Measuring Nat :=
  match operation with
  | .quote _ call => return 1 + max moveDegree (← call.measure function)
  | .jumpEqualFunction _ call _ => return 1 + max compareDegree (← call.measure function)
  | _ => return operation.kind.degree?.getD 0

/-- The largest degree of some instructions; 0 for none. -/
def measureCode (code : List Instruction) : Measuring Nat := do
  let degrees ← code.mapM fun instruction => instruction.operation.measure function
  return degrees.foldl max 0

end Bodies

namespace Registry

/-- Measures the body of a function, unless it is under way or unknown. -/
def measureBody (registry : Registry) : (fuel : Nat) → String → Measuring Nat
  | 0, _ => failure
  | fuel + 1, name =>
      match registry[name]? with
      | none => return 0
      | some callee => do
          if (← get).contains name then return 0
          modify (name :: ·)
          let degree ← measureCode (registry.measureBody fuel) callee.instructions
          modify List.tail
          return degree

/-- Measures an instruction, with no function under way. -/
def measureInstruction (registry : Registry) (fuel : Nat) (instruction : Instruction) : Option Nat :=
  (instruction.operation.measure (registry.measureBody fuel) []).map Prod.fst

end Registry

/-- Measures the current instructions of a routine, which is itself under way. -/
def Routine.measure (routine : Routine) (registry : Registry) (fuel : Nat) : Option Nat :=
  (measureCode (registry.measureBody fuel) routine.instructions [routine.name]).map Prod.fst

end CounterMachine
