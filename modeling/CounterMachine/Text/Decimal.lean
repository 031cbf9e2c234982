set_option autoImplicit false

/-!
# Decimal numerals

Numerals are written without a sign and without leading zeros. They are read back from any nonempty run
of ASCII digits whose value is below a bound; leading zeros are accepted. Command-line numerals may also
start with a plus sign.
-/

namespace CounterMachine.Text.Decimal

/-- The value of a nonempty run of ASCII digits. -/
def read? (text : List Char) : Option Nat :=
  if text ≠ [] ∧ text.all Char.isDigit then some (Nat.ofDigitChars 10 text 0) else none

/-- The value of a nonempty run of ASCII digits, if it is below `bound`. -/
def readBelow? (bound : Nat) (text : List Char) : Option Nat :=
  (read? text).filter (· < bound)

/-- An index of a variable or a label: a numeral below `2 ^ 32`. -/
def index? (text : List Char) : Option UInt32 :=
  (readBelow? UInt32.size text).map UInt32.ofNat

/-- A constant of a program: a numeral below `2 ^ 64`. -/
def constant? (text : List Char) : Option UInt64 :=
  (readBelow? UInt64.size text).map UInt64.ofNat

/-- A text without one plus sign at its start. -/
def withoutPlus : List Char → List Char
  | '+' :: rest => rest
  | text => text

/-- A numeral below `bound` that may start with a plus sign. -/
def unsignedBelow? (bound : Nat) (text : List Char) : Option Nat :=
  readBelow? bound (withoutPlus text)

/-- How many numbers from 0 on a signed word of 64 bits can hold. -/
def signedBound : Nat := 9223372036854775808

/-- Whether a text is a numeral, with at most one sign in front, from `-(2 ^ 63)` up to `2 ^ 63 - 1`. -/
def isSigned : List Char → Bool
  | '-' :: rest => (readBelow? (signedBound + 1) rest).isSome
  | text => (unsignedBelow? signedBound text).isSome

/-- Writing a number and reading the digits gives the number back. -/
theorem read?_toDigits (n : Nat) : read? (Nat.toDigits 10 n) = some n := by
  have digits : (Nat.toDigits 10 n).all Char.isDigit = true := by
    simp only [List.all_eq_true]
    intro c member
    exact Nat.isDigit_of_mem_toDigits (by decide) (by decide) member
  simp [read?, Nat.toDigits_ne_nil, digits, Nat.ofDigitChars_ten_toDigits]

theorem readBelow?_toDigits {bound n : Nat} (below : n < bound) :
    readBelow? bound (Nat.toDigits 10 n) = some n := by
  simp [readBelow?, read?_toDigits, below]

end CounterMachine.Text.Decimal
