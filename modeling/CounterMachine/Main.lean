import CounterMachine.Command.Report
set_option autoImplicit false

/-!
# The command line

Reads the file of a request, prints the report and writes the file that the report asks for.
-/

namespace CounterMachine.Command

/-- More steps than any run can take in practice. -/
def ampleFuel : Nat := 1152921504606846976

def FileFault.ofError (error : IO.Error) : FileFault :=
  match error with
  | .noFileOrDirectory _ _ _ => .missing
  | .inappropriateType _ code _ => if code = 21 then .isDirectory else .notDirectory
  | .invalidArgument _ code text => if code = 36 || code = -36 then .nameTooLong else .other text
  | unknown => .other unknown.toString

def Report.print (report : Report) : IO UInt32 := do
  (← IO.getStdout).putStr report.stdout
  (← IO.getStderr).putStr report.stderr
  return report.code.toUInt32

def readContents (name : String) : IO (Except FileFault ByteArray) := do
  try
    return .ok (← IO.FS.readBinFile name)
  catch error =>
    return .error (.ofError error)

def writeContents (name text : String) (report : Report) : IO UInt32 := do
  try
    IO.FS.writeFile name text
  catch error =>
    return ← (writeFailure name (.ofError error)).print
  report.print

end CounterMachine.Command

open CounterMachine.Command in
def main (words : List String) : IO UInt32 := do
  match Request.ofWords words with
  | .error fault => (Report.failure 1 fault.message).print
  | .ok request =>
      let contents ← match request.input? with
        | some name => readContents name
        | none => pure (.error .missing)
      match request.react ampleFuel contents with
      | .error report => report.print
      | .ok (.report report) => report.print
      | .ok (.write name text report) => writeContents name text report
