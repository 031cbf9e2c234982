import CounterMachine.Call
import CounterMachine.Text.Layout
set_option autoImplicit false

/-!
# Reading calls

A call is read from text after every blank has been removed from it. The text between the outer parentheses
is divided at the commas that stand outside inner parentheses: the first piece is the name of the function,
the others are its arguments.
-/

namespace CounterMachine

/-- Whether a text is the name of a function: ASCII letters, digits and underscores, no digit first. -/
def isFunctionName : List Char → Bool
  | [] => false
  | first :: rest =>
      (first.isAlpha || first == '_') && rest.all fun c => c.isAlphanum || c == '_'

/-- Why a text is not a call. -/
inductive CallFault where
  | missingParentheses
  | unbalanced
  | emptyArgument
  | invalidName
  | invalidArgument
deriving DecidableEq

def CallFault.message : CallFault → String
  | missingParentheses => "expected '(' ... ')'"
  | unbalanced => "unbalanced parentheses"
  | emptyArgument => "empty argument"
  | invalidName => "invalid function name"
  | invalidArgument => "invalid argument"

namespace Call

/-- Divides a text at the commas outside parentheses. `depth` parentheses are open in front of the text;
nothing is returned if the parentheses of the text do not close them and each other. -/
def pieces? (depth : Nat) : List Char → Option (List (List Char))
  | [] => if depth = 0 then some [[]] else none
  | c :: rest =>
      if c = ',' ∧ depth = 0 then (pieces? 0 rest).map ([] :: ·)
      else
        let depthAfter : Option Nat :=
          if c = '(' then some (depth + 1)
          else if c = ')' then (if depth = 0 then none else some (depth - 1))
          else some depth
        match depthAfter with
        | none => none
        | some next =>
            match pieces? next rest with
            | some (piece :: others) => some ((c :: piece) :: others)
            | _ => none

/-- Total length of some pieces and of the separators between them, one more than the divided text. -/
def weight : List (List Char) → Nat
  | [] => 0
  | part :: rest => part.length + 1 + weight rest

theorem weight_of_pieces? {depth : Nat} {text : List Char} {parts : List (List Char)}
    (divided : pieces? depth text = some parts) : weight parts = text.length + 1 := by
  induction text generalizing depth parts with
  | nil =>
      by_cases closed : depth = 0
      · simp only [pieces?, closed, if_true, Option.some.injEq] at divided
        subst divided
        rfl
      · simp [pieces?, closed] at divided
  | cons c rest ih =>
      rw [pieces?] at divided
      split at divided
      · obtain ⟨others, dividedRest, rfl⟩ := Option.map_eq_some_iff.mp divided
        have := ih dividedRest
        simp only [weight, List.length_nil, List.length_cons] at this ⊢
        omega
      · dsimp only at divided
        split at divided
        · contradiction
        · split at divided
          · rename_i piece others dividedRest
            have := ih dividedRest
            simp only [Option.some.injEq] at divided
            subst divided
            simp only [weight, List.length_cons] at this ⊢
            omega
          · contradiction

/-- The text between an opening parenthesis at the start and a closing one at the end. -/
def inner? : List Char → Option (List Char)
  | '(' :: rest => if rest.getLast? = some ')' then some rest.dropLast else none
  | _ => none

theorem length_of_inner? {text inside : List Char} (enclosed : inner? text = some inside) :
    text.length = inside.length + 2 := by
  unfold inner? at enclosed
  split at enclosed
  · rename_i rest
    split at enclosed
    · rename_i closing
      simp only [Option.some.injEq] at enclosed
      subst enclosed
      cases rest with
      | nil => simp at closing
      | cons c others => simp
    · contradiction
  · contradiction

mutual

/-- Reads a call from a text without blanks. -/
def readCompact (text : List Char) : Except CallFault Call :=
  match _enclosed : inner? text with
  | none => .error .missingParentheses
  | some inside =>
      match _divided : pieces? 0 inside with
      | none => .error .unbalanced
      | some [] => .error .unbalanced
      | some (name :: parts) =>
          if (name :: parts).any List.isEmpty then .error .emptyArgument
          else if !isFunctionName name then .error .invalidName
          else (readArguments parts).map fun arguments => ⟨String.ofList name, arguments⟩
termination_by text.length
decreasing_by
  have outer := length_of_inner? _enclosed
  have whole := weight_of_pieces? _divided
  simp only [weight] at whole ⊢
  omega

/-- Reads the arguments of a call, each from a text without blanks; the first fault counts. -/
def readArguments : List (List Char) → Except CallFault (List Argument)
  | [] => .ok []
  | part :: parts =>
      match (if part.head? = some '(' then (readCompact part).map Call.toArgument
        else match Variable.read? part with
          | some name => .ok (.var name)
          | none => .error .invalidArgument) with
      | .error fault => .error fault
      | .ok argument => (readArguments parts).map (argument :: ·)
termination_by parts => weight parts
decreasing_by
  all_goals
    simp only [weight]
    omega

end

/-- Reads a call; blanks are ignored wherever they stand. -/
def read (text : List Char) : Except CallFault Call :=
  readCompact (Text.withoutBlanks text)

end Call

end CounterMachine
