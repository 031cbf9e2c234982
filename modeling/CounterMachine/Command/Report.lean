import CounterMachine.Assembly.Reading
import CounterMachine.Command.FileSystem
import CounterMachine.Command.Request
import CounterMachine.Program
import CounterMachine.Text.Layout
import CounterMachine.Violation
set_option autoImplicit false

/-!
# Reports

What a command answers: an exit code and the texts for the two output streams. The code is 1 for a fault in
the command line, a file or its text, 2 for violations and 3 for a failure of expansion or of a run. A command
reads one file, and may ask for another one to be written.
-/

namespace CounterMachine.Command

open Text

/-! ## Tables

The lines in which a command shows snapshots, instructions and lineages. -/

/-- Some lines, every one ended. -/
def unlines (lines : List String) : String :=
  String.join (lines.map (· ++ "\n"))

def snapshotLine (snapshot : Snapshot) : String :=
  let place := match snapshot.position with
    | some position => "#" ++ (position + 1).repr
    | none => "start"
  "step " ++ alignRight 4 snapshot.step.repr ++ "  " ++ alignLeft 6 place ++ " cycles=" ++
    alignLeft 6 snapshot.cycles.toNat.repr ++ " " ++ snapshot.values.render

def tableLine (position tag label instruction cycles generation depth digest : String) : String :=
  alignRight 4 position ++ "  " ++ tag ++ "  " ++ alignLeft 6 label ++ " " ++
    alignLeft 36 instruction ++ " " ++ alignRight 3 cycles ++ "  " ++ alignLeft 4 generation ++ " " ++
    alignRight 5 depth ++ "  " ++ digest

def tableHead : String :=
  tableLine "#" "C" "LABEL" "INSTRUCTION" "CYC" "GEN" "DEPTH" "DIGEST"

def rowLine (row : Row) : String :=
  let instruction := row.node.instruction
  let kind := instruction.kind
  tableLine row.position.repr kind.tag instruction.label.render instruction.render kind.cycles.repr
    kind.generation.render row.node.depth.repr row.node.signature.digest

def lineageLine (node : Node) : String :=
  alignRight 5 node.depth.repr ++ "  " ++ alignLeft 36 node.instruction.render ++ " " ++
    node.signature.digest

/-! ## Answers -/

/-- The answer of a command. -/
structure Report where
  code : Nat := 0
  stdout : String := ""
  stderr : String := ""
deriving DecidableEq

def Report.failure (code : Nat) (text : String) : Report :=
  { code, stderr := text }

/-- What is left to do after the file of a request was read. -/
inductive Reaction where
  | report (report : Report)
  /-- A text is to be written to a file; the report is for the case that this succeeds. -/
  | write (name text : String) (report : Report)

/-- The file that a request reads. -/
def Request.input? : Request → Option String
  | help => none
  | verify input | run input _ _ _ _ | list input _ | expand input _ _ | lineage input _ _ =>
      some input

/-- Reads a source from the bytes of a file and checks it. -/
def loadSource (name : String) (contents : Except FileFault ByteArray) : Except Report Source :=
  let text : Except FileFault String := match contents with
    | .error fault => .error fault
    | .ok bytes => match String.fromUTF8? bytes with
      | some text => .ok text
      | none => .error .notText
  match text with
  | .error fault => .error (.failure 1 ("error: cannot read '" ++ name ++ "': " ++ fault.message ++ "\n"))
  | .ok text =>
      match Source.assemble text with
      | .error error => .error (.failure 1 ("error: " ++ error.message ++ "\n"))
      | .ok source =>
          match source.violations with
          | [] => .ok source
          | violations =>
              .error (.failure 2 (unlines (violations.map fun violation =>
                "error: " ++ violation.message)))

/-- The program of a source, expanded as a request says. -/
def buildProgram (source : Source) (depth : Option Depth) : Except Report Program :=
  match Program.load source with
  | .error failure => .error (.failure 3 ("error: " ++ failure.message ++ "\n"))
  | .ok program =>
      let rounds := depth.map fun
        | .rounds count => count
        | .full => program.degree
      match rounds with
      | none => .ok program
      | some count =>
          match program.expand count with
          | .error failure => .error (.failure 3 ("expansion error: " ++ failure.message ++ "\n"))
          | .ok expanded => .ok expanded

/-- The report of a run. The trace is not shown if the run fails. -/
def runReport (fuel : Nat) (program : Program) (arguments : List UInt64) (trace : Bool)
    (limit : Option Nat) : Report :=
  let (main, steps, outcome) :=
    (program.main.start arguments).driveUntil program.functions limit fuel 0
  let history := if trace then unlines (main.state.history.toList.map snapshotLine) else ""
  match outcome with
  | .failed failure => .failure 3 ("runtime error: " ++ failure.message ++ "\n")
  | .unfinished => .failure 3 "runtime error: out of fuel\n"
  | .done .limit =>
      { code := 3
        stdout := history
        stderr := "error: step limit of " ++ steps.repr ++ " reached before termination\n" }
  | .done .halted =>
      { stdout := history ++ "y = " ++ main.result.toNat.repr ++ "\ncycles = " ++
          main.state.cycles.toNat.repr ++ "\n" }

def listReport (program : Program) : Report :=
  let main := program.main
  { stdout := unlines (tableHead :: main.rows.map rowLine ++ [
      "",
      "instructions = " ++ main.length.repr,
      "cost = " ++ program.cost.repr,
      "degree = " ++ program.degree.repr,
      "nesting = " ++ main.nesting.repr]) }

/-- The report of the lineage of the instruction at a position, which counts from 1. -/
def lineageReport (main : Routine) (position : Nat) : Report :=
  match (if position = 0 then none else main.lineage? (position - 1)) with
  | some nodes => { stdout := unlines (nodes.map lineageLine) }
  | none =>
      .failure 1 ("error: position " ++ position.repr ++ " is outside 1..=" ++ main.length.repr ++ "\n")

/-- Answers a request, given the bytes of its file. -/
def Request.react (fuel : Nat) (contents : Except FileFault ByteArray) :
    Request → Except Report Reaction
  | help => return .report { stderr := usage }
  | verify input => do
      let source ← loadSource input contents
      return .report { stdout := "OK: " ++ input ++ " (" ++ source.program.body.length.repr ++
        " instructions, " ++ source.functions.length.repr ++ " functions)\n" }
  | run input arguments depth trace limit => do
      let program ← buildProgram (← loadSource input contents) depth
      return .report (runReport fuel program arguments trace limit)
  | list input depth => do
      let program ← buildProgram (← loadSource input contents) depth
      return .report (listReport program)
  | expand input depth output => do
      let source ← loadSource input contents
      let program ← buildProgram source (some depth)
      let text := ({ source with program := program.main.toDefinition } : Source).listing
      match output with
      | none => return .report { stdout := text }
      | some name =>
          return .write name text { stderr := "expanded " ++ source.program.body.length.repr ++
            " instructions to " ++ program.main.length.repr ++ " -> " ++ name ++ "\n" }
  | lineage input position depth => do
      let program ← buildProgram (← loadSource input contents) depth
      return .report (lineageReport program.main position)

def writeFailure (name : String) (fault : FileFault) : Report :=
  .failure 1 ("error: cannot write '" ++ name ++ "': " ++ fault.message ++ "\n")

/-- Answers a command line, with the files as they are afterwards. -/
def answer (fuel : Nat) (system : FileSystem) (words : List String) : Report × FileSystem :=
  match Request.ofWords words with
  | .error fault => (.failure 1 fault.message, system)
  | .ok request =>
      let contents := match request.input? with
        | some name => system.read name
        | none => .error .missing
      match request.react fuel contents with
      | .error report => (report, system)
      | .ok (.report report) => (report, system)
      | .ok (.write name text report) =>
          match system.write name text with
          | .ok written => (report, written)
          | .error fault => (writeFailure name fault, system)

end CounterMachine.Command
