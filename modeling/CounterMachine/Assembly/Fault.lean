import CounterMachine.Call.Reading
import CounterMachine.Label
set_option autoImplicit false

/-!
# Faults in source text

Variables, labels and calls are read from texts of their own; a text that is none of them is reported as it
was written. Reading a source stops at the first fault. A fault is a cause together with the number of the
line, counted from 1, where it was found.
-/

namespace CounterMachine

/-- A text that is not what it should be. -/
inductive ReadError where
  | notVariable (text : String)
  | notLabel (text : String)
  | notCall (text : String) (reason : CallFault)
deriving DecidableEq

def ReadError.message : ReadError → String
  | notVariable text => "invalid variable '" ++ text ++ "'"
  | notLabel text => "invalid label '" ++ text ++ "'"
  | notCall text reason => "invalid call '" ++ text ++ "': " ++ reason.message

def Variable.ofText (text : String) : Except ReadError Variable :=
  match read? text.toList with
  | some name => .ok name
  | none => .error (.notVariable text)

def Label.ofText (text : String) : Except ReadError Label :=
  match read? text.toList with
  | some label => .ok label
  | none => .error (.notLabel text)

def Call.ofText (text : String) : Except ReadError Call :=
  match read text.toList with
  | .ok call => .ok call
  | .error reason => .error (.notCall text reason)

namespace Assembly

/-- What is wrong with a line of source text. -/
inductive Fault where
  | unknownMnemonic (token : String)
  | missingArgument (mnemonic : String) (expected : Nat)
  | invalidNumber (token : String)
  | unexpectedToken (token : String)
  | unreadable (error : ReadError)
  | invalidName (token : String)
  | unterminatedCall
  | danglingLabel (label : String)
  | nestedFunction
  | unclosedFunction (name : String)
  | strayEnd
deriving DecidableEq

def Fault.message : Fault → String
  | unknownMnemonic token => "unknown mnemonic '" ++ token ++ "'"
  | missingArgument mnemonic expected => mnemonic ++ " expects " ++ expected.repr ++ " argument(s)"
  | invalidNumber token => "invalid number '" ++ token ++ "'"
  | unexpectedToken token => "unexpected token '" ++ token ++ "'"
  | unreadable error => error.message
  | invalidName token => "invalid name '" ++ token ++ "'"
  | unterminatedCall => "unterminated call"
  | danglingLabel label => "label '" ++ label ++ "' is not followed by an instruction"
  | nestedFunction => "FUNCTION inside a function block"
  | unclosedFunction name => "function '" ++ name ++ "' is never closed with END"
  | strayEnd => "END without FUNCTION"

/-- A fault and the line where it was found. -/
structure Error where
  line : Nat
  fault : Fault
deriving DecidableEq

def Error.message (error : Error) : String :=
  "line " ++ error.line.repr ++ ": " ++ error.fault.message

end Assembly

end CounterMachine
