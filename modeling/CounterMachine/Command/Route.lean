set_option autoImplicit false

/-!
# Routes

A text that names a file is a route: it starts at the root or at the working directory and goes from name to
name. What a name on the way leads to depends on the files that are there, so a route keeps its dots.
-/

namespace CounterMachine.Command

/-- Why a file cannot be read or written. -/
inductive FileFault where
  | missing
  | isDirectory
  | notDirectory
  | nameTooLong
  | notText
  | other (text : String)
deriving DecidableEq

def FileFault.message : FileFault → String
  | missing => "No such file or directory (os error 2)"
  | isDirectory => "Is a directory (os error 21)"
  | notDirectory => "Not a directory (os error 20)"
  | nameTooLong => "File name too long (os error 36)"
  | notText => "stream did not contain valid UTF-8"
  | other text => text

/-- The bytes that one name may take. -/
def nameLimit : Nat := 255

/-- The bytes that the text of a route may take. -/
def routeLimit : Nat := 4095

/-- A way through the directories. -/
structure Route where
  /-- The way starts at the root, otherwise at the working directory. -/
  fromRoot : Bool
  /-- The names on the way, none of them empty. -/
  names : List String
  /-- A slash after the last name asks for a directory there. -/
  endsInSlash : Bool
deriving DecidableEq

namespace Route

/-- The parts of a text between its slashes, given the characters of the current part in reverse order. -/
def partsFrom : List Char → List Char → List String
  | current, [] => [String.ofList current.reverse]
  | current, c :: rest =>
      if c = '/' then String.ofList current.reverse :: partsFrom [] rest
      else partsFrom (c :: current) rest

/-- The route that a text gives. The empty text leads nowhere. -/
def ofText (text : String) : Except FileFault Route :=
  let characters := text.toList
  if characters.isEmpty then .error .missing
  else if routeLimit < text.utf8ByteSize then .error .nameTooLong
  else .ok {
    fromRoot := characters.head? = some '/'
    names := (partsFrom [] characters).filter fun name => !name.isEmpty
    endsInSlash := characters.getLast? = some '/' }

end Route

end CounterMachine.Command
