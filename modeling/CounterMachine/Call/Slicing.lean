import CounterMachine.Call.Reading
import CounterMachine.Text.Slice
set_option autoImplicit false

/-!
# Reading calls by offsets

The text of a call can be divided in one pass that keeps the offset where the current part starts. At a comma
outside parentheses the part is cut out of the text. A part that is a call itself has to be shorter than the
text that it is a part of.
-/

namespace CounterMachine.Call

/-- Cuts the parts out of a text, of which `rest` is left from `offset` on. The last part is kept apart from the
parts before it. -/
def cutParts (text : List Char) (depth start offset : Nat) (parts : Array (List Char)) :
    (rest : List Char) → Guarded CallFault (Array (List Char) × List Char)
  | [] => do
      if depth ≠ 0 then throw .unbalanced
      return (parts, ← Text.onward start text)
  | c :: rest => do
      let next := offset + c.utf8Size
      if c = '(' then cutParts text (depth + 1) start next parts rest
      else if c = ')' then
        match depth with
        | 0 => throw .unbalanced
        | outer + 1 => cutParts text outer start next parts rest
      else if c = ',' ∧ depth = 0 then
        let part ← Text.between start offset text
        cutParts text depth (offset + 1) next (parts.push part) rest
      else cutParts text depth start next parts rest

/-- The first part of a text and the others; no part may be empty. -/
def cutTopLevel (text : List Char) : Guarded CallFault (List Char × List (List Char)) := do
  let (parts, last) ← cutParts text 0 0 0 #[] text
  if (parts.push last).any List.isEmpty then throw .emptyArgument
  match parts.toList with
  | [] => return (last, [])
  | first :: others => return (first, others ++ [last])

mutual

/-- Reads a call from a text without blanks. -/
def readSliced (text : List Char) : Guarded CallFault Call :=
  match inner? text with
  | none => throw .missingParentheses
  | some inside => do
      let (name, parts) ← cutTopLevel inside
      if !isFunctionName name then throw .invalidName
      return ⟨String.ofList name, ← readParts text.length parts⟩
termination_by (text.length, 1, 0)

/-- Reads the arguments of a call with a text of some length. -/
def readParts (length : Nat) : List (List Char) → Guarded CallFault (List Argument)
  | [] => return []
  | part :: parts => do
      let argument ←
        if part.head? = some '(' then
          if part.length < length then Call.toArgument <$> readSliced part else Guarded.crash .stuck
        else
          match Variable.read? part with
          | some name => pure (.var name)
          | none => throw .invalidArgument
      return argument :: (← readParts length parts)
termination_by parts => (length, 0, parts.length)

end

/-- Reads a call; blanks are ignored wherever they stand. -/
def readByOffset (text : List Char) : Guarded CallFault Call :=
  readSliced (Text.withoutBlanks text)

end CounterMachine.Call
