import CounterMachine.Routine.Degree
import CounterMachine.Routine.Expansion
import CounterMachine.Routine.Run
set_option autoImplicit false

/-!
# Programs

A program is a main routine together with the functions that it reaches. The functions stay as they are;
only the main routine is run, expanded and collapsed. What a routine needs of a registry is found by following
the calls of the routine, then the calls of the functions it calls, in the order of discovery.
-/

namespace CounterMachine

namespace Registry

/-- Moves pending functions, and those that they call, from the registry to the resolved ones. Names that
are resolved already are skipped; the first other name that the registry does not have is unknown. -/
def resolvePending (registry resolved : Registry) (pending : List String) :
    Except Failure Registry :=
  match pending.dropWhile resolved.contains with
  | [] => .ok resolved
  | name :: rest =>
      match _found : registry[name]? with
      | none => .error (.unknownFunction name)
      | some routine =>
          resolvePending (registry.erase name) (resolved.insert name routine)
            (rest ++ routine.calledNames)
termination_by registry.size
decreasing_by exact size_erase_lt _found

/-- The functions that a routine calls, directly or through other functions. -/
def resolve (registry : Registry) (routine : Routine) : Except Failure Registry :=
  resolvePending registry ∅ routine.calledNames

end Registry

/-- A main routine and the functions it reaches. -/
structure Program where
  main : Routine
  functions : Registry

namespace Program

/-- A routine with the functions that it reaches in a registry. -/
def link (main : Routine) (registry : Registry) : Except Failure Program :=
  (registry.resolve main).map fun functions => ⟨main, functions⟩

/-- The program of a source. -/
def load (source : Source) : Except Failure Program :=
  link (.ofDefinition source.program) (.ofSource source)

def cost (program : Program) : Nat :=
  program.functions.values.foldr (fun function total => function.cost + total) program.main.cost

def degree (program : Program) : Nat :=
  program.main.degree program.functions

def expand (program : Program) (rounds : Nat) : Except Failure Program :=
  (program.main.expand program.functions rounds).map fun main => { program with main }

end Program

end CounterMachine
