set_option autoImplicit false

/-!
# Slices

A text can be cut at an offset, which counts the bytes of its characters. An offset beyond the end of the text,
or inside a character, is not a place to cut: a computation that tries to do so crashes. A crash is not a fault
of the text that is read; it has no message and no line.
-/

namespace CounterMachine

/-- Why a computation breaks off without a result. -/
inductive Crash where
  /-- A text is cut beyond its end or inside a character. -/
  | offset
  /-- An element is taken beyond the end of a list. -/
  | index
  /-- A counter goes below 0. -/
  | counter
  /-- A loop or a recursion goes on with a text that is not shorter. -/
  | stuck
deriving DecidableEq

/-- A computation with a result or a fault, unless it crashes. -/
abbrev Guarded (ε : Type) := ExceptT ε (Except Crash)

namespace Guarded

variable {ε α : Type}

/-- What is known without a crash. -/
def of (result : Except ε α) : Guarded ε α :=
  .mk (.ok result)

def crash (reason : Crash) : Guarded ε α :=
  .mk (.error reason)

end Guarded

namespace Text

/-- The bytes of the characters of a text. -/
def byteLength : List Char → Nat
  | [] => 0
  | c :: rest => c.utf8Size + byteLength rest

/-- The parts before and after an offset. -/
def cut? : (offset : Nat) → List Char → Option (List Char × List Char)
  | 0, text => some ([], text)
  | _ + 1, [] => none
  | offset + 1, c :: rest =>
      if c.utf8Size ≤ offset + 1 then
        (cut? (offset + 1 - c.utf8Size) rest).map fun parts => (c :: parts.1, parts.2)
      else none

def cut (offset : Nat) (text : List Char) : Except Crash (List Char × List Char) :=
  match cut? offset text with
  | some parts => .ok parts
  | none => .error .offset

/-- The text before an offset. -/
def upTo (stop : Nat) (text : List Char) : Except Crash (List Char) :=
  Prod.fst <$> cut stop text

/-- The text from an offset on. -/
def onward (start : Nat) (text : List Char) : Except Crash (List Char) :=
  Prod.snd <$> cut start text

/-- The text between two offsets, the first of which is not behind the second. -/
def between (start stop : Nat) (text : List Char) : Except Crash (List Char) :=
  upTo stop text >>= onward start

/-- The offset of the first character with a property. -/
def find? (property : Char → Bool) : List Char → Option Nat
  | [] => none
  | c :: rest => if property c then some 0 else (find? property rest).map (c.utf8Size + ·)

end Text

end CounterMachine
