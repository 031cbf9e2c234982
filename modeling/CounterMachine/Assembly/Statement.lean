import CounterMachine.Assembly.Token
import CounterMachine.Instruction
set_option autoImplicit false

/-!
# Statements

A line that is not blank holds one statement: a directive or an instruction. An instruction is a mnemonic
with exactly the operands of its kind, and it may follow a label. Operands are read from left to right, and
the first fault counts.
-/

namespace CounterMachine.Assembly

/-- What a line of source text says. -/
inductive Statement where
  | program (name : String)
  | function (name : String)
  | finish
  | instruction (instruction : Instruction)
deriving DecidableEq

/-- A reader of operands: it takes tokens from the front of a list. -/
abbrev Operands := StateT (List Token) (Except Fault)

namespace Operands

/-- Takes the next token; `missing` is the fault if there is none. -/
def next (missing : Fault) : Operands Token
  | [] => .error missing
  | token :: rest => .ok (token, rest)

def takeVariable (missing : Fault) : Operands Variable := do
  match ← next missing with
  | .word text =>
      match Variable.read? text with
      | some name => return name
      | none => throw (.unreadable (.notVariable (String.ofList text)))
  | token => throw (.unexpectedToken token.render)

def takeTarget (missing : Fault) : Operands Label := do
  match ← next missing with
  | .word text =>
      match Label.read? text with
      | some label => return label
      | none => throw (.unreadable (.notLabel (String.ofList text)))
  | token => throw (.unexpectedToken token.render)

def takeConstant (missing : Fault) : Operands UInt64 := do
  match ← next missing with
  | .number value => return value
  | .word text => throw (.invalidNumber (String.ofList text))
  | token => throw (.unexpectedToken token.render)

def takeCall (missing : Fault) : Operands Call := do
  match ← next missing with
  | .call text =>
      match Call.read text with
      | .ok call => return call
      | .error reason => throw (.unreadable (.notCall (String.ofList text) reason))
  | token => throw (.unexpectedToken token.render)

/-- Takes the name of a program or a function. Another token after the name is found before the name itself
is looked at. -/
def takeName : Operands String := do
  match ← next (.missingArgument "name" 1) with
  | .word text =>
      match ← get with
      | extra :: _ => throw (.unexpectedToken extra.render)
      | [] =>
          if isFunctionName text then return String.ofList text
          else throw (.invalidName (String.ofList text))
  | token => throw (.unexpectedToken token.render)

def finished : Operands Unit := do
  match ← get with
  | [] => return ()
  | token :: _ => throw (.unexpectedToken token.render)

end Operands

/-- How many operands the instructions of a kind have. -/
def operandCount : Kind → Nat
  | .increase | .decrease | .neutral | .zeroVariable | .gotoLabel => 1
  | .jumpNotZero | .jumpZero | .constantAssignment | .assignment | .quote => 2
  | .jumpEqualConstant | .jumpEqualVariable | .jumpEqualFunction => 3

def operation (kind : Kind) : Operands Operation := do
  let missing := Fault.missingArgument kind.mnemonic (operandCount kind)
  match kind with
  | .increase => return .increase (← Operands.takeVariable missing)
  | .decrease => return .decrease (← Operands.takeVariable missing)
  | .neutral => return .neutral (← Operands.takeVariable missing)
  | .zeroVariable => return .zeroVariable (← Operands.takeVariable missing)
  | .gotoLabel => return .gotoLabel (← Operands.takeTarget missing)
  | .jumpNotZero =>
      return .jumpNotZero (← Operands.takeVariable missing) (← Operands.takeTarget missing)
  | .jumpZero =>
      return .jumpZero (← Operands.takeVariable missing) (← Operands.takeTarget missing)
  | .constantAssignment =>
      return .constantAssignment (← Operands.takeVariable missing) (← Operands.takeConstant missing)
  | .assignment =>
      return .assignment (← Operands.takeVariable missing) (← Operands.takeVariable missing)
  | .quote =>
      return .quote (← Operands.takeVariable missing) (← Operands.takeCall missing)
  | .jumpEqualConstant =>
      return .jumpEqualConstant (← Operands.takeVariable missing) (← Operands.takeConstant missing)
        (← Operands.takeTarget missing)
  | .jumpEqualVariable =>
      return .jumpEqualVariable (← Operands.takeVariable missing) (← Operands.takeVariable missing)
        (← Operands.takeTarget missing)
  | .jumpEqualFunction =>
      return .jumpEqualFunction (← Operands.takeVariable missing) (← Operands.takeCall missing)
        (← Operands.takeTarget missing)

/-- The directive that a word starts, with a reader of its operands. -/
def directive? (word : List Char) : Option (Operands Statement) :=
  let upper := word.map Char.toUpper
  if upper = "PROGRAM".toList then some (Statement.program <$> Operands.takeName)
  else if upper = "FUNCTION".toList then some (Statement.function <$> Operands.takeName)
  else if upper = "END".toList then some (pure .finish)
  else none

/-- The statement that starts with a token. A directive takes no label in front of it. -/
def statement (label : Option Label) (first : Token) (rest : List Token) :
    Except Fault Statement :=
  match first with
  | .word word =>
      match directive? word with
      | some reader => do
          let (statement, _) ← (reader <* Operands.finished).run rest
          if label.isSome then throw (.unexpectedToken (String.ofList word))
          return statement
      | none =>
          match Kind.ofMnemonic? word with
          | none => .error (.unknownMnemonic (String.ofList word))
          | some kind => do
              let (operation, _) ← (operation kind <* Operands.finished).run rest
              return .instruction { label := label.getD .empty, operation }
  | token => .error (.unexpectedToken token.render)

/-- The statement of a line, given its tokens; nothing for a blank line. -/
def statement? : List Token → Except Fault (Option Statement)
  | [] => .ok none
  | .label name :: rest =>
      match Label.read? name, rest with
      | none, _ => .error (.unreadable (.notLabel (String.ofList name)))
      | some _, [] => .error (.danglingLabel (String.ofList name))
      | some label, first :: others => (statement (some label) first others).map some
  | first :: rest => (statement none first rest).map some

/-- The statement of a line of text; nothing for a blank line. -/
def Statement.ofLine? (line : List Char) : Except Fault (Option Statement) :=
  Token.ofLine line >>= statement?

end CounterMachine.Assembly
