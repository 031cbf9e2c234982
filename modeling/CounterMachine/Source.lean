import CounterMachine.Instruction
set_option autoImplicit false

/-!
# Sources

A source holds a main program and the auxiliary functions that it may call. Both are definitions: named
lists of instructions as they were written. A source can be listed as text.
-/

namespace CounterMachine

/-- A named list of instructions. -/
structure Definition where
  name : String
  body : List Instruction
deriving DecidableEq

/-- A main program with its auxiliary functions, in the order of the text. -/
structure Source where
  program : Definition
  functions : List Definition
deriving DecidableEq

namespace Definition

/-- Every variable that occurs, and the result. -/
def vars (definition : Definition) : VariableSet :=
  .ofList (.result :: definition.body.flatMap Instruction.vars)

/-- The inputs that occur, by index. -/
def inputs (definition : Definition) : List Variable :=
  definition.vars.toList.filter Variable.isInput

/-- The attached labels in order, with repetitions. -/
def labels (definition : Definition) : List Label :=
  (definition.body.map Instruction.label).filter fun label => !label.isEmpty

end Definition

namespace Source

def function? (source : Source) (name : String) : Option Definition :=
  source.functions.find? fun function => function.name = name

def definitions (source : Source) : List Definition :=
  source.program :: source.functions

end Source

/-! ## Listings

The canonical text of a source has one line for each directive and instruction, single spaces between tokens,
and no comments. The main program comes first, then each function between `FUNCTION` and `END`. -/

/-- The operands of an operation in the order of the text. -/
def Operation.operands : Operation → List String
  | .increase subject | .decrease subject | .neutral subject | .zeroVariable subject =>
      [subject.render]
  | .jumpNotZero subject target | .jumpZero subject target => [subject.render, target.render]
  | .gotoLabel target => [target.render]
  | .constantAssignment subject constant => [subject.render, constant.toNat.repr]
  | .assignment subject source => [subject.render, source.render]
  | .jumpEqualConstant subject constant target =>
      [subject.render, constant.toNat.repr, target.render]
  | .jumpEqualVariable subject other target => [subject.render, other.render, target.render]
  | .quote subject call => [subject.render, call.render]
  | .jumpEqualFunction subject call target => [subject.render, call.render, target.render]

/-- The line of an instruction, with its label in front. -/
def Instruction.listing (instruction : Instruction) : String :=
  let label := if instruction.label.isEmpty then "" else instruction.label.render ++ ": "
  label ++ " ".intercalate (instruction.kind.mnemonic :: instruction.operation.operands)

/-- The lines of a definition, without a directive. -/
def Definition.listing (definition : Definition) : List String :=
  definition.body.map Instruction.listing

def Source.listingLines (source : Source) : List String :=
  ("PROGRAM " ++ source.program.name) :: source.program.listing ++
    source.functions.flatMap fun function =>
      ("FUNCTION " ++ function.name) :: function.listing ++ ["END"]

/-- The canonical text of a source; every line is ended. -/
def Source.listing (source : Source) : String :=
  String.join (source.listingLines.map (· ++ "\n"))

end CounterMachine
