import CounterMachine.Variable
set_option autoImplicit false

/-!
# Calls

A call applies a function, known by its name, to arguments. An argument is a variable or again a call. The
written form `(Add,x1,(Successor,x2))` has no blanks.
-/

namespace CounterMachine

inductive Argument where
  | var (name : Variable)
  | call (function : String) (arguments : List Argument)

/-- A function applied to arguments. -/
structure Call where
  function : String
  arguments : List Argument

namespace Argument

mutual

def decEq : (left right : Argument) → Decidable (left = right)
  | .var left, .var right =>
      if same : left = right then isTrue (same ▸ rfl)
      else isFalse fun equal => same (Argument.var.inj equal)
  | .call left lefts, .call right rights =>
      if same : left = right then
        match decEqAll lefts rights with
        | isTrue sameAll => isTrue (same ▸ sameAll ▸ rfl)
        | isFalse different => isFalse fun equal => different (Argument.call.inj equal).2
      else isFalse fun equal => same (Argument.call.inj equal).1
  | .var _, .call _ _ => isFalse nofun
  | .call _ _, .var _ => isFalse nofun

def decEqAll : (lefts rights : List Argument) → Decidable (lefts = rights)
  | [], [] => isTrue rfl
  | left :: lefts, right :: rights =>
      match decEq left right with
      | isTrue same =>
          match decEqAll lefts rights with
          | isTrue sameAll => isTrue (same ▸ sameAll ▸ rfl)
          | isFalse different => isFalse fun equal => different (List.cons.inj equal).2
      | isFalse different => isFalse fun equal => different (List.cons.inj equal).1
  | [], _ :: _ => isFalse nofun
  | _ :: _, [] => isFalse nofun

end

instance : DecidableEq Argument := decEq

mutual

/-- How deep calls are nested in an argument. -/
def nesting : Argument → Nat
  | .var _ => 0
  | .call _ arguments => 1 + nestingAll arguments

def nestingAll : List Argument → Nat
  | [] => 0
  | argument :: rest => max argument.nesting (nestingAll rest)

end

mutual

/-- The variables of an argument from left to right, with repetitions. -/
def vars : Argument → List Variable
  | .var name => [name]
  | .call _ arguments => varsAll arguments

def varsAll : List Argument → List Variable
  | [] => []
  | argument :: rest => argument.vars ++ varsAll rest

end

mutual

/-- The calls in an argument, an outer call before the calls inside it. -/
def calls : Argument → List Call
  | .var _ => []
  | .call function arguments => ⟨function, arguments⟩ :: callsAll arguments

def callsAll : List Argument → List Call
  | [] => []
  | argument :: rest => argument.calls ++ callsAll rest

end

mutual

def mapVars (rename : Variable → Variable) : Argument → Argument
  | .var name => .var (rename name)
  | .call function arguments => .call function (mapVarsAll rename arguments)

def mapVarsAll (rename : Variable → Variable) : List Argument → List Argument
  | [] => []
  | argument :: rest => argument.mapVars rename :: mapVarsAll rename rest

end

mutual

def render : Argument → String
  | .var name => name.render
  | .call function arguments => "(" ++ function ++ renderAll arguments ++ ")"

/-- The written form of some arguments, a comma before each. -/
def renderAll : List Argument → String
  | [] => ""
  | argument :: rest => "," ++ argument.render ++ renderAll rest

end

end Argument

deriving instance DecidableEq for Call

namespace Call

def toArgument (call : Call) : Argument :=
  .call call.function call.arguments

/-- One more than the nesting of the deepest argument. -/
def nesting (call : Call) : Nat :=
  call.toArgument.nesting

def vars (call : Call) : List Variable :=
  Argument.varsAll call.arguments

/-- The call itself and the calls inside it, an outer call before the calls inside it. -/
def calls (call : Call) : List Call :=
  call.toArgument.calls

/-- The names of the called functions, an outer call before the calls inside it. -/
def functions (call : Call) : List String :=
  call.calls.map Call.function

def mapVars (rename : Variable → Variable) (call : Call) : Call :=
  { call with arguments := Argument.mapVarsAll rename call.arguments }

def render (call : Call) : String :=
  call.toArgument.render

end Call

end CounterMachine
