import CounterMachine.Routine
set_option autoImplicit false

/-!
# Degrees

The degree of an instruction is the number of rounds of expansion that it takes until only basic
instructions are left. For a composition it is one more than the largest degree of what the call is expanded
into: the binding of the arguments, the body of the function and the final use of its result. The body of a
function inside itself counts 0, so the degree of a recursive function is finite.
-/

namespace CounterMachine

/-- The degree of an instruction that moves a value, such as the binding of an argument. -/
def moveDegree : Nat := 2

/-- The degree of an instruction that compares two variables. -/
def compareDegree : Nat := 3

namespace Argument

mutual

/-- The degree of the binding of an argument, given the degrees of function bodies. -/
def degree (body : String → Nat) : Argument → Nat
  | .var _ => moveDegree
  | .call function arguments =>
      1 + max moveDegree (max (body function) (degreeAll body arguments))

def degreeAll (body : String → Nat) : List Argument → Nat
  | [] => 0
  | argument :: rest => max (argument.degree body) (degreeAll body rest)

end

end Argument

/-- The largest degree in the expansion of a call, the use of its result apart. -/
def Call.degree (body : String → Nat) (call : Call) : Nat :=
  max (body call.function) (Argument.degreeAll body call.arguments)

def Operation.degree (body : String → Nat) (operation : Operation) : Nat :=
  match operation with
  | .quote _ call => 1 + max moveDegree (call.degree body)
  | .jumpEqualFunction _ call _ => 1 + max compareDegree (call.degree body)
  | _ => operation.kind.degree?.getD 0

/-- The largest degree of some instructions; 0 for none. -/
def degreeOf (body : String → Nat) (instructions : List Instruction) : Nat :=
  (instructions.map fun instruction => instruction.operation.degree body).foldl max 0

namespace Registry

/-- The degree of the body of a function; 0 if the registry does not have it. A function is not looked up
again inside its own body. -/
def bodyDegree (registry : Registry) (name : String) : Nat :=
  match _found : registry[name]? with
  | none => 0
  | some routine => degreeOf (bodyDegree (registry.erase name)) routine.instructions
termination_by registry.size
decreasing_by exact size_erase_lt _found

def instructionDegree (registry : Registry) (instruction : Instruction) : Nat :=
  instruction.operation.degree registry.bodyDegree

end Registry

/-- The degree of a routine: the largest of its current instructions, where the routine's own name counts as
known. -/
def Routine.degree (routine : Routine) (registry : Registry) : Nat :=
  degreeOf (Registry.bodyDegree (registry.erase routine.name)) routine.instructions

end CounterMachine
