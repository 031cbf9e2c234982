import CounterMachine.Command.Route
set_option autoImplicit false

/-!
# File systems

The files that a command can see, each under its path from the root, and the working directory. The
directories are those on the way to a file or to the working directory. A route is followed name by name, so
the first name that does not lead on decides the fault.
-/

namespace CounterMachine.Command

/-- The names on the way from the root to a file or a directory, without dots. -/
abbrev Path := List String

/-- Files with their contents, and the place where a command runs. -/
structure FileSystem where
  workingDirectory : Path
  files : List (Path × ByteArray)

namespace FileSystem

def get? (system : FileSystem) (path : Path) : Option ByteArray :=
  system.files.lookup path

def isDirectory (system : FileSystem) (path : Path) : Bool :=
  path.isPrefixOf system.workingDirectory ||
    system.files.any fun file => path.isPrefixOf file.1 && path ≠ file.1

/-- Goes from a place to the one that a name gives. Only a directory has a way on. One dot stays, and two dots
go up; above the root is the root. -/
def step (system : FileSystem) (place : Path) (name : String) : Except FileFault Path :=
  if !system.isDirectory place then .error .notDirectory
  else if name = "." then .ok place
  else if name = ".." then .ok place.dropLast
  else if nameLimit < name.utf8ByteSize then .error .nameTooLong
  else
    let next := place ++ [name]
    if system.isDirectory next || (system.get? next).isSome then .ok next else .error .missing

def walk (system : FileSystem) : Path → List String → Except FileFault Path
  | place, [] => .ok place
  | place, name :: rest =>
      match system.step place name with
      | .error fault => .error fault
      | .ok next => system.walk next rest

def start (system : FileSystem) (route : Route) : Path :=
  if route.fromRoot then [] else system.workingDirectory

/-- The bytes of the file at the end of a route. -/
def read (system : FileSystem) (text : String) : Except FileFault ByteArray := do
  let route ← Route.ofText text
  let place ← system.walk (system.start route) route.names
  if system.isDirectory place then .error .isDirectory
  else if route.endsInSlash then .error .notDirectory
  else match system.get? place with
    | some bytes => .ok bytes
    | none => .error .missing

/-- The path of the file that a write to a route makes or replaces. The directory of the file has to be there.
A route that ends in dots or in a slash asks for a directory, which cannot be written. -/
def target (system : FileSystem) (route : Route) : Except FileFault Path :=
  match route.names.getLast? with
  | none => .error .isDirectory
  | some name => do
      let place ← system.walk (system.start route) route.names.dropLast
      let path := place ++ [name]
      if !system.isDirectory place then .error .notDirectory
      else if route.endsInSlash || name = "." || name = ".." then .error .isDirectory
      else if nameLimit < name.utf8ByteSize then .error .nameTooLong
      else if system.isDirectory path then .error .isDirectory
      else .ok path

/-- Writes a text to the file at the end of a route, a new one or one that is there already. -/
def write (system : FileSystem) (name text : String) : Except FileFault FileSystem := do
  let path ← system.target (← Route.ofText name)
  return { system with files := (path, text.toUTF8) :: system.files.filter fun file => file.1 ≠ path }

end FileSystem

end CounterMachine.Command
