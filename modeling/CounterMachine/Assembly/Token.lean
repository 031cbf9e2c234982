import CounterMachine.Assembly.Fault
set_option autoImplicit false

/-!
# Tokens of a line

A comment starts at a semicolon and runs to the end of its line. What stands before it is divided at blanks;
a parenthesis opens a call, which runs to the parenthesis that closes it, blanks included. A word that ends
with a colon is a label, a word that starts with a digit is a number.
-/

namespace CounterMachine.Assembly

/-- A token of a line. -/
inductive Token where
  /-- A label in front of an instruction, without its colon. -/
  | label (name : List Char)
  | word (text : List Char)
  | number (value : UInt64)
  /-- A call with its parentheses. -/
  | call (text : List Char)
deriving DecidableEq

namespace Token

/-- The text of a token in an error message. -/
def render : Token → String
  | label name => String.ofList name ++ ":"
  | word text => String.ofList text
  | number value => value.toNat.repr
  | call text => String.ofList text

/-- Divides a text just after the parenthesis that closes an earlier one, with `depth` more to close before
it; nothing is returned if the text ends first. -/
def splitCall? (depth : Nat) : List Char → Option (List Char × List Char)
  | [] => none
  | c :: rest =>
      if c = ')' ∧ depth = 0 then some ([c], rest)
      else
        let next := if c = '(' then depth + 1 else if c = ')' then depth - 1 else depth
        (splitCall? next rest).map fun parts => (c :: parts.1, parts.2)

/-- Nothing is lost between the two parts. -/
theorem append_of_splitCall? {depth : Nat} {text inside after : List Char}
    (split : splitCall? depth text = some (inside, after)) : inside ++ after = text := by
  induction text generalizing depth inside with
  | nil => simp [splitCall?] at split
  | cons c rest ih =>
      rw [splitCall?] at split
      split at split
      · simp only [Option.some.injEq, Prod.mk.injEq] at split
        simp [← split.1, ← split.2]
      · obtain ⟨⟨innerInside, innerAfter⟩, innerSplit, equal⟩ := Option.map_eq_some_iff.mp split
        simp only [Prod.mk.injEq] at equal
        obtain ⟨rfl, rfl⟩ := equal
        simp [ih innerSplit]

def endsWord (c : Char) : Bool :=
  Text.isBlank c || c = '('

def ofWord (text : List Char) : Except Fault Token :=
  if text.getLast? = some ':' then .ok (.label text.dropLast)
  else if text.head?.any Char.isDigit then
    match Text.Decimal.constant? text with
    | some value => .ok (.number value)
    | none => .error (.invalidNumber (String.ofList text))
  else .ok (.word text)

/-- The tokens of a text without comments; the first fault counts. -/
def scan (text : List Char) : Except Fault (List Token) :=
  match _start : text.dropWhile Text.isBlank with
  | [] => .ok []
  | c :: rest =>
      if c = '(' then
        match _parts : splitCall? 0 rest with
        | none => .error .unterminatedCall
        | some (inside, after) => (scan after).map (.call (c :: inside) :: ·)
      else
        match ofWord (c :: rest.takeWhile fun d => !endsWord d) with
        | .error fault => .error fault
        | .ok token => (scan (rest.dropWhile fun d => !endsWord d)).map (token :: ·)
termination_by text.length
decreasing_by
  · have whole := congrArg List.length _start
    have dropped := (List.dropWhile_sublist Text.isBlank (l := text)).length_le
    have split := congrArg List.length (append_of_splitCall? _parts)
    simp only [List.length_append, List.length_cons] at whole split
    omega
  · have whole := congrArg List.length _start
    have dropped := (List.dropWhile_sublist Text.isBlank (l := text)).length_le
    have word := (List.dropWhile_sublist (fun d => !endsWord d) (l := rest)).length_le
    simp only [List.length_cons] at whole
    omega

def ofLine (line : List Char) : Except Fault (List Token) :=
  scan (line.takeWhile (· ≠ ';'))

end Token

end CounterMachine.Assembly
