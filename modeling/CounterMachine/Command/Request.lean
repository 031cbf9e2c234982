import CounterMachine.Text.Decimal
set_option autoImplicit false

/-!
# Requests

The words of a command line, read as a request. A word that starts with a hyphen and is not a number is an
option. Options and file names may come in any order; of an option that is repeated the last value counts.
-/

namespace CounterMachine.Command

/-- How far the main program is to be expanded. -/
inductive Depth where
  | rounds (count : Nat)
  /-- As many rounds as the degree of the program. -/
  | full
deriving DecidableEq

/-- What a command line asks for. -/
inductive Request where
  | help
  | verify (input : String)
  | run (input : String) (arguments : List UInt64) (depth : Option Depth) (trace : Bool)
      (limit : Option Nat)
  | list (input : String) (depth : Option Depth)
  | expand (input : String) (depth : Depth) (output : Option String)
  | lineage (input : String) (position : Nat) (depth : Option Depth)
deriving DecidableEq

/-- Why a command line is not a request. -/
inductive UsageFault where
  | noCommand
  | unknownCommand (word : String)
  | unknownOption (word : String)
  | missingValue (option : String)
  | invalidDegree (value : String)
  | invalidStepCount (value : String)
  | verifyFile
  | runFile
  | listFile
  | expandFile
  | expandDegree
  | lineageOperands
  | invalidInput (value : String)
  | invalidPosition (value : String)
deriving DecidableEq

def usage : String :=
  "\n".intercalate [
    "Usage: slang <command> [args]",
    "",
    "Commands:",
    "  verify <file.sl>                                  Check a program and its functions",
    "  run <file.sl> [inputs...] [--degree N] [--trace] [--max-steps N]",
    "                                                    Execute with the given inputs",
    "  list <file.sl> [--degree N]                       Print the instruction table",
    "  expand <file.sl> --degree N [-o out.sl]           Emit the expanded program",
    "  lineage <file.sl> <position> [--degree N]         Print an instruction's derivation",
    "",
    "N is a number of expansion rounds, or 'max' for full expansion.",
    "--max-steps counts main-program steps only. A QUOTE or JUMP_EQUAL_FUNCTION",
    "runs its function to completion as one step; use --degree max to bound it.",
    ""]

/-- The fault in words; every line is ended. -/
def UsageFault.message : UsageFault → String
  | noCommand => usage
  | unknownCommand word => "error: unknown command '" ++ word ++ "'\n\n" ++ usage
  | unknownOption word => "error: unknown option '" ++ word ++ "'\n"
  | missingValue option => "error: " ++ option ++ " requires a value\n"
  | invalidDegree value =>
      "error: invalid degree '" ++ value ++ "' (expected a number or 'max')\n"
  | invalidStepCount value => "error: invalid step count '" ++ value ++ "'\n"
  | verifyFile => "error: verify requires exactly one input file\nUsage: slang verify <file.sl>\n"
  | runFile =>
      "error: run requires an input file\n" ++
        "Usage: slang run <file.sl> [inputs...] [--degree N] [--trace] [--max-steps N]\n"
  | listFile =>
      "error: list requires exactly one input file\nUsage: slang list <file.sl> [--degree N]\n"
  | expandFile =>
      "error: expand requires exactly one input file\n" ++
        "Usage: slang expand <file.sl> --degree N [-o out.sl]\n"
  | expandDegree => "error: expand requires --degree\n"
  | lineageOperands =>
      "error: lineage requires an input file and a position\n" ++
        "Usage: slang lineage <file.sl> <position> [--degree N]\n"
  | invalidInput value => "error: invalid input value '" ++ value ++ "'\n"
  | invalidPosition value => "error: invalid position '" ++ value ++ "'\n"

/-- An option that a command may take. -/
inductive Flag where
  | degree
  | trace
  | maxSteps
  | output
deriving DecidableEq

def Flag.word : Flag → String
  | degree => "--degree"
  | trace => "--trace"
  | maxSteps => "--max-steps"
  | output => "-o"

/-- The words after the command: operands in order, and the values of options. -/
structure Options where
  operands : List String := []
  depth : Option Depth := none
  trace : Bool := false
  limit : Option Nat := none
  output : Option String := none

namespace Options

/-- Whether a word is an operand and not an option. -/
def isOperand (word : String) : Bool :=
  word.toList.head? ≠ some '-' || Text.Decimal.isSigned word.toList

def depthOf (value : String) : Except UsageFault Depth :=
  if value.toList.map Char.toUpper = "MAX".toList then .ok .full
  else match Text.Decimal.unsignedBelow? UInt32.size value.toList with
    | some count => .ok (.rounds count)
    | none => .error (.invalidDegree value)

def set (options : Options) (flag : Flag) (value : String) : Except UsageFault Options :=
  match flag with
  | .degree => (depthOf value).map fun depth => { options with depth := some depth }
  | .maxSteps =>
      match Text.Decimal.unsignedBelow? UInt64.size value.toList with
      | some limit => .ok { options with limit := some limit }
      | none => .error (.invalidStepCount value)
  | .output => .ok { options with output := some value }
  | .trace => .ok { options with trace := true }

/-- Reads the words after a command that takes some options. -/
def read (allowed : List Flag) (options : Options) : List String → Except UsageFault Options
  | [] => .ok options
  | word :: rest =>
      if isOperand word then
        read allowed { options with operands := options.operands ++ [word] } rest
      else
        match allowed.find? fun flag => flag.word = word with
        | none => .error (.unknownOption word)
        | some .trace => read allowed { options with trace := true } rest
        | some flag =>
            match rest with
            | [] => .error (.missingValue word)
            | value :: others =>
                match options.set flag value with
                | .error fault => .error fault
                | .ok next => read allowed next others

end Options

/-- Reads the arguments of a run; the first one that is not a number counts. -/
def inputValues (words : List String) : Except UsageFault (List UInt64) :=
  words.mapM fun word =>
    match Text.Decimal.unsignedBelow? UInt64.size word.toList with
    | some value => .ok (UInt64.ofNat value)
    | none => .error (.invalidInput word)

namespace Request

def ofVerify (words : List String) : Except UsageFault Request := do
  let options ← Options.read [] {} words
  match options.operands with
  | [input] => return .verify input
  | _ => throw .verifyFile

def ofRun (words : List String) : Except UsageFault Request := do
  let options ← Options.read [.degree, .trace, .maxSteps] {} words
  match options.operands with
  | [] => throw .runFile
  | input :: rest => return .run input (← inputValues rest) options.depth options.trace options.limit

def ofList (words : List String) : Except UsageFault Request := do
  let options ← Options.read [.degree] {} words
  match options.operands with
  | [input] => return .list input options.depth
  | _ => throw .listFile

def ofExpand (words : List String) : Except UsageFault Request := do
  let options ← Options.read [.degree, .output] {} words
  match options.operands, options.depth with
  | [input], some depth => return .expand input depth options.output
  | [_], none => throw .expandDegree
  | _, _ => throw .expandFile

def ofLineage (words : List String) : Except UsageFault Request := do
  let options ← Options.read [.degree] {} words
  match options.operands with
  | [input, word] =>
      match Text.Decimal.unsignedBelow? UInt64.size word.toList with
      | some position => return .lineage input position options.depth
      | none => throw (.invalidPosition word)
  | _ => throw .lineageOperands

def ofWords : List String → Except UsageFault Request
  | [] => .error .noCommand
  | command :: rest =>
      match command with
      | "verify" => ofVerify rest
      | "run" => ofRun rest
      | "list" => ofList rest
      | "expand" => ofExpand rest
      | "lineage" => ofLineage rest
      | "--help" | "-h" | "help" => .ok .help
      | other => .error (.unknownCommand other)

end Request

end CounterMachine.Command
