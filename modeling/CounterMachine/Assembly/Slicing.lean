import CounterMachine.Assembly.Reading
import CounterMachine.Call.Slicing
set_option autoImplicit false

/-!
# Reading sources by offsets

A line can be read by offsets and indices: tokens are cut out of the line where they start and end, and operands
are taken from the list of tokens by their places. Whether an offset or an index is a proper one depends on what
was found before, so every cut and every access may crash.
-/

namespace CounterMachine.Assembly

namespace Token

/-- The offset just after the parenthesis that closes the first one, if there is one, with `depth` parentheses
open and the rest of the text starting at `offset`. -/
def callEndFrom (depth offset : Nat) : List Char → Except Crash (Option Nat)
  | [] => .ok none
  | c :: rest =>
      if c = '(' then callEndFrom (depth + 1) (offset + c.utf8Size) rest
      else if c = ')' then
        match depth with
        | 0 => .error .counter
        | outer + 1 =>
            if outer = 0 then .ok (some (offset + 1)) else callEndFrom outer (offset + c.utf8Size) rest
      else callEndFrom depth (offset + c.utf8Size) rest

def callEnd (text : List Char) : Except Crash (Option Nat) :=
  callEndFrom 0 0 text

/-- The token at the start of a text, and the offset where it ends. -/
def first (text : List Char) : Guarded Fault (Token × Nat) :=
  if text.head? = some '(' then do
    match ← callEnd text with
    | none => throw .unterminatedCall
    | some stop => return (.call (← Text.upTo stop text), stop)
  else do
    let stop := (Text.find? endsWord text).getD (Text.byteLength text)
    return (← Guarded.of (ofWord (← Text.upTo stop text)), stop)

/-- The tokens of a text that does not start with a blank. What is left after a token has to be shorter. -/
def scanByOffset (text : List Char) : Guarded Fault (List Token) :=
  if text = [] then return []
  else do
    let (token, stop) ← first text
    let rest := (← Text.onward stop text).dropWhile Text.isBlank
    if _shorter : rest.length < text.length then return token :: (← scanByOffset rest)
    else Guarded.crash .stuck
termination_by text.length

/-- A line up to its comment. -/
def withoutComment (line : List Char) : Except Crash (List Char) :=
  match Text.find? (· = ';') line with
  | some stop => Text.upTo stop line
  | none => .ok line

def ofLineByOffset (line : List Char) : Guarded Fault (List Token) := do
  scanByOffset ((← withoutComment line).dropWhile Text.isBlank)

/-- The token at an index. -/
def get (tokens : List Token) (index : Nat) : Except Crash Token :=
  match tokens[index]? with
  | some token => .ok token
  | none => .error .index

/-- The tokens from an index on; the index may be that of the end. -/
def onward (tokens : List Token) (start : Nat) : Except Crash (List Token) :=
  if start ≤ tokens.length then .ok (tokens.drop start) else .error .index

end Token

/-- A reader of the operand at an index. -/
abbrev Indexed (α : Type) := List Token → Nat → Guarded Fault α

namespace Indexed

variable {α β γ : Type}

/-- Reads the token at an index as the only operand. A list that is too short has no operand there. -/
def ofOperands (reader : Operands α) : Indexed α := fun tokens index =>
  Guarded.of (reader.run' tokens[index]?.toList)

def call (missing : Fault) : Indexed Call := fun tokens index =>
  match tokens[index]? with
  | none => throw missing
  | some (.call text) =>
      (Call.readByOffset text).adapt fun reason => .unreadable (.notCall (String.ofList text) reason)
  | some token => throw (.unexpectedToken token.render)

/-- No token stands at an index or behind it. -/
def finished (tokens : List Token) (start : Nat) : Guarded Fault Unit := do
  Guarded.of (Operands.finished.run' (← Token.onward tokens start))

def unary (first : Indexed α) (make : α → Operation) (tokens : List Token) : Guarded Fault Operation := do
  let one ← first tokens 0
  finished tokens 1
  return make one

def binary (first : Indexed α) (second : Indexed β) (make : α → β → Operation) (tokens : List Token) :
    Guarded Fault Operation := do
  let one ← first tokens 0
  let two ← second tokens 1
  finished tokens 2
  return make one two

def ternary (first : Indexed α) (second : Indexed β) (third : Indexed γ) (make : α → β → γ → Operation)
    (tokens : List Token) : Guarded Fault Operation := do
  let one ← first tokens 0
  let two ← second tokens 1
  let three ← third tokens 2
  finished tokens 3
  return make one two three

end Indexed

/-- The operation of a kind, with the operands that the tokens hold. -/
def operationByIndex (kind : Kind) : List Token → Guarded Fault Operation :=
  let missing := Fault.missingArgument kind.mnemonic (operandCount kind)
  let name := Indexed.ofOperands (Operands.takeVariable missing)
  let target := Indexed.ofOperands (Operands.takeTarget missing)
  let constant := Indexed.ofOperands (Operands.takeConstant missing)
  let call := Indexed.call missing
  match kind with
  | .increase => Indexed.unary name .increase
  | .decrease => Indexed.unary name .decrease
  | .neutral => Indexed.unary name .neutral
  | .zeroVariable => Indexed.unary name .zeroVariable
  | .gotoLabel => Indexed.unary target .gotoLabel
  | .jumpNotZero => Indexed.binary name target .jumpNotZero
  | .jumpZero => Indexed.binary name target .jumpZero
  | .constantAssignment => Indexed.binary name constant .constantAssignment
  | .assignment => Indexed.binary name name .assignment
  | .quote => Indexed.binary name call .quote
  | .jumpEqualConstant => Indexed.ternary name constant target .jumpEqualConstant
  | .jumpEqualVariable => Indexed.ternary name name target .jumpEqualVariable
  | .jumpEqualFunction => Indexed.ternary name call target .jumpEqualFunction

/-- The statement of some tokens that are not empty. -/
def statementByIndex (label : Option Label) (tokens : List Token) : Guarded Fault Statement := do
  match ← Token.get tokens 0 with
  | .word word =>
      let operands ← Token.onward tokens 1
      match directive? word with
      | some reader =>
          let statement ← Guarded.of ((reader <* Operands.finished).run' operands)
          if label.isSome then throw (.unexpectedToken (← Token.get tokens 0).render)
          return statement
      | none =>
          match Kind.ofMnemonic? word with
          | none => throw (.unknownMnemonic (String.ofList word))
          | some kind =>
              return .instruction { label := label.getD .empty, operation := ← operationByIndex kind operands }
  | token => throw (.unexpectedToken token.render)

/-- The statement of a line, given its tokens; nothing for a blank line. -/
def statementByIndex? : List Token → Guarded Fault (Option Statement)
  | [] => return none
  | .label name :: rest =>
      match Label.read? name with
      | none => throw (.unreadable (.notLabel (String.ofList name)))
      | some label =>
          if rest = [] then throw (.danglingLabel (String.ofList name))
          else some <$> statementByIndex (some label) rest
  | tokens => some <$> statementByIndex none tokens

namespace Progress

def addLinesByOffset (progress : Progress) (line : Nat) : List (List Char) → Guarded Error Progress
  | [] => return progress
  | text :: rest => do
      let statement ← (Token.ofLineByOffset text >>= statementByIndex?).adapt fun fault => ⟨line, fault⟩
      let next ← match statement with
        | none => pure progress
        | some statement => Guarded.of (progress.add line statement)
      next.addLinesByOffset (line + 1) rest

end Progress

end CounterMachine.Assembly

namespace CounterMachine

/-- Reads a source by offsets and indices. -/
def Source.assembleByOffset (text : String) : Guarded Assembly.Error Source := do
  let progress ← Assembly.Progress.addLinesByOffset {} 1 (Text.lines text.toList)
  Guarded.of progress.finish

end CounterMachine
