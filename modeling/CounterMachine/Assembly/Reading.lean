import CounterMachine.Assembly.Statement
import CounterMachine.Source
import CounterMachine.Text.Layout
set_option autoImplicit false

/-!
# Reading sources

Lines are read in order. Instructions belong to the main program, or to the function that is open; blocks of
functions do not contain one another. The main program is called `Main` unless a line names it, and the last
such line counts.
-/

namespace CounterMachine.Assembly

/-- A definition of which not all instructions are known yet. -/
structure Draft where
  name : String
  body : Array Instruction := #[]

namespace Draft

def push (draft : Draft) (instruction : Instruction) : Draft :=
  { draft with body := draft.body.push instruction }

def toDefinition (draft : Draft) : Definition :=
  ⟨draft.name, draft.body.toList⟩

end Draft

/-- What has been read of a source. -/
structure Progress where
  program : Draft := { name := "Main" }
  functions : Array Definition := #[]
  /-- The open function and the line that opened it. -/
  current : Option (Nat × Draft) := none

namespace Progress

/-- Adds the statement of the line with a number. -/
def add (progress : Progress) (line : Nat) : Statement → Except Error Progress
  | .program name =>
      match progress.current with
      | some _ => .error ⟨line, .unexpectedToken "PROGRAM"⟩
      | none => .ok { progress with program := { progress.program with name := name } }
  | .function name =>
      match progress.current with
      | some _ => .error ⟨line, .nestedFunction⟩
      | none => .ok { progress with current := some (line, { name := name }) }
  | .finish =>
      match progress.current with
      | some (_, draft) =>
          .ok { progress with
            functions := progress.functions.push draft.toDefinition
            current := none }
      | none => .error ⟨line, .strayEnd⟩
  | .instruction instruction =>
      match progress.current with
      | some (opened, draft) =>
          .ok { progress with current := some (opened, draft.push instruction) }
      | none => .ok { progress with program := progress.program.push instruction }

def addLine (progress : Progress) (line : Nat) (text : List Char) : Except Error Progress :=
  match Statement.ofLine? text with
  | .error fault => .error ⟨line, fault⟩
  | .ok none => .ok progress
  | .ok (some statement) => progress.add line statement

/-- Reads lines, the first of which has a number; the first error counts. -/
def addLines (progress : Progress) (line : Nat) : List (List Char) → Except Error Progress
  | [] => .ok progress
  | text :: rest =>
      match progress.addLine line text with
      | .error error => .error error
      | .ok next => next.addLines (line + 1) rest

/-- The source that has been read, if no function is open. -/
def finish (progress : Progress) : Except Error Source :=
  match progress.current with
  | some (line, draft) => .error ⟨line, .unclosedFunction draft.name⟩
  | none => .ok ⟨progress.program.toDefinition, progress.functions.toList⟩

end Progress

end CounterMachine.Assembly

namespace CounterMachine

def Source.assemble (text : String) : Except Assembly.Error Source :=
  Assembly.Progress.addLines {} 1 (Text.lines text.toList) >>= Assembly.Progress.finish

end CounterMachine
