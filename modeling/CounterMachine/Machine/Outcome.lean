import CounterMachine.Label
set_option autoImplicit false

/-!
# Outcomes

What can go wrong while a function is run, expanded or collapsed, and the result of a computation that may
not end. A computation gets some fuel; `unfinished` says that the fuel did not suffice, and it is not a
failure.
-/

namespace CounterMachine

/-- A reason why a function cannot be run, expanded or collapsed. -/
inductive Failure where
  | undefinedLabel (label : Label) (position : Nat)
  | unknownFunction (name : String)
  | argumentCount (function : String) (expected found : Nat)
  | noSuchSignature (key : String)
  | namesExhausted
deriving DecidableEq

def Failure.message : Failure → String
  | undefinedLabel label position =>
      "jump to undefined label " ++ label.render ++ " at instruction " ++ position.repr
  | unknownFunction name => "unknown function '" ++ name ++ "'"
  | argumentCount function expected found =>
      "function '" ++ function ++ "' expects " ++ expected.repr ++ " arguments, got " ++ found.repr
  | noSuchSignature key => "no instruction with signature '" ++ key ++ "'"
  | namesExhausted => "no name is left"

/-- The result of a computation that may fail, and that may run out of fuel. -/
inductive Outcome (α : Type) where
  | done (value : α)
  | failed (failure : Failure)
  | unfinished
deriving DecidableEq

namespace Outcome

variable {α β : Type}

def bind (outcome : Outcome α) (next : α → Outcome β) : Outcome β :=
  match outcome with
  | done value => next value
  | failed failure => failed failure
  | unfinished => unfinished

def map (f : α → β) (outcome : Outcome α) : Outcome β :=
  outcome.bind fun value => done (f value)

end Outcome

end CounterMachine
