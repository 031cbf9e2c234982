set_option autoImplicit false

/-!
# Kinds of instructions

Four kinds are basic. The other nine are synthetic: each stands for a list of simpler instructions. The two
composition kinds take the value of a call. A kind fixes the mnemonic, the cycles of one execution, the
generation and with it the credit, and, composition apart, the degree.
-/

namespace CounterMachine

/-- What an instruction does, without its operands. -/
inductive Kind where
  | increase
  | decrease
  | jumpNotZero
  | neutral
  | zeroVariable
  | gotoLabel
  | constantAssignment
  | assignment
  | jumpZero
  | jumpEqualConstant
  | jumpEqualVariable
  | quote
  | jumpEqualFunction
deriving DecidableEq

/-- Generation of a kind: the basic kinds, then the kinds built on earlier generations. -/
inductive Generation where
  | first
  | second
  | third
  | fourth
deriving DecidableEq

namespace Generation

def render : Generation → String
  | first => "I"
  | second => "II"
  | third => "III"
  | fourth => "IV"

/-- What one instruction of the generation adds to the cost of a function. -/
def credit : Generation → Nat
  | first => 5
  | second => 100
  | third => 500
  | fourth => 1000

end Generation

namespace Kind

/-- Every kind, basic kinds first. -/
def all : List Kind :=
  [increase, decrease, jumpNotZero, neutral, zeroVariable, gotoLabel, constantAssignment, assignment,
    jumpZero, jumpEqualConstant, jumpEqualVariable, quote, jumpEqualFunction]

/-- The word that starts an instruction in source text. -/
def mnemonic : Kind → String
  | increase => "INCREASE"
  | decrease => "DECREASE"
  | jumpNotZero => "JUMP_NOT_ZERO"
  | neutral => "NEUTRAL"
  | zeroVariable => "ZERO_VARIABLE"
  | gotoLabel => "GOTO_LABEL"
  | constantAssignment => "CONSTANT_ASSIGNMENT"
  | assignment => "ASSIGNMENT"
  | jumpZero => "JUMP_ZERO"
  | jumpEqualConstant => "JUMP_EQUAL_CONSTANT"
  | jumpEqualVariable => "JUMP_EQUAL_VARIABLE"
  | quote => "QUOTE"
  | jumpEqualFunction => "JUMP_EQUAL_FUNCTION"

/-- The kind with a mnemonic, in any case of its letters. -/
def ofMnemonic? (text : List Char) : Option Kind :=
  all.find? fun kind => kind.mnemonic.toList = text.map Char.toUpper

/-- Cycles of one execution, the cycles of called functions not counted. -/
def cycles : Kind → Nat
  | neutral => 0
  | increase | decrease | zeroVariable | gotoLabel => 1
  | jumpNotZero | constantAssignment | jumpZero | jumpEqualConstant | jumpEqualVariable => 2
  | assignment => 4
  | quote => 5
  | jumpEqualFunction => 6

def generation : Kind → Generation
  | increase | decrease | jumpNotZero | neutral => .first
  | zeroVariable | gotoLabel | constantAssignment => .second
  | assignment | jumpZero | jumpEqualConstant | jumpEqualVariable => .third
  | quote | jumpEqualFunction => .fourth

def credit (kind : Kind) : Nat :=
  kind.generation.credit

/-- Rounds of expansion that lead to basic instructions; none for the composition kinds, where the number
depends on the call. -/
def degree? : Kind → Option Nat
  | increase | decrease | jumpNotZero | neutral => some 0
  | zeroVariable | gotoLabel => some 1
  | constantAssignment | assignment | jumpZero => some 2
  | jumpEqualConstant | jumpEqualVariable => some 3
  | quote | jumpEqualFunction => none

def isBasic (kind : Kind) : Bool :=
  kind.generation = .first

def isComposition : Kind → Bool
  | quote | jumpEqualFunction => true
  | _ => false

/-- One letter: basic or synthetic. -/
def tag (kind : Kind) : String :=
  if kind.isBasic then "B" else "S"

end Kind

end CounterMachine
