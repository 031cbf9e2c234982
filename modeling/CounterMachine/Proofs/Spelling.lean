import CounterMachine.Assembly.Statement
import CounterMachine.Source
import Mathlib.Data.List.TakeWhile
set_option autoImplicit false

/-!
# Spelling of operands

Names, labels, numbers and mnemonics are written with ASCII letters, digits and underscores, and what is
written is read back. A variable is legible if it is `y` or has an index above 0; a label is, if it is not
empty. Reading yields nothing else.
-/

namespace CounterMachine

/-! ## Characters of names -/

theorem isAlpha_iff {c : Char} : c.isAlpha = true ↔
    65 ≤ c.toNat ∧ c.toNat ≤ 90 ∨ 97 ≤ c.toNat ∧ c.toNat ≤ 122 := by
  change (decide (c.val ≥ 65 ∧ c.val ≤ 90) || (decide (c.val ≥ 97) && decide (c.val ≤ 122))) = true ↔ _
  simp only [Bool.or_eq_true, Bool.and_eq_true, decide_eq_true_eq, ge_iff_le, UInt32.le_iff_toNat_le]
  exact Iff.rfl

theorem isDigit_iff {c : Char} : c.isDigit = true ↔ 48 ≤ c.toNat ∧ c.toNat ≤ 57 := by
  simp only [Char.isDigit, Bool.and_eq_true, decide_eq_true_eq, ge_iff_le, UInt32.le_iff_toNat_le]
  exact Iff.rfl

/-- A character of a name: an ASCII letter, a digit or an underscore. -/
def isNameChar (c : Char) : Bool :=
  c.isAlphanum || c == '_'

theorem ne_of_isNameChar {c other : Char} (inName : isNameChar c = true) (outside : isNameChar other = false) :
    c ≠ other := by
  rintro rfl
  rw [inName] at outside
  cases outside

theorem not_isBlank_of_isNameChar {c : Char} (inName : isNameChar c = true) : Text.isBlank c = false := by
  simp only [isNameChar, Char.isAlphanum, Bool.or_eq_true, isAlpha_iff, isDigit_iff, beq_iff_eq] at inName
  rcases inName with range | rfl
  · simp only [Text.isBlank, Text.blankRanges, List.any_cons, List.any_nil, Bool.or_false,
      Bool.or_eq_false_iff, Bool.and_eq_false_iff, decide_eq_false_iff_not, Nat.not_le]
    omega
  · decide

/-- A character of a token: besides names, tokens hold the punctuation of calls and the colon of a label. -/
def isTokenChar (c : Char) : Bool :=
  isNameChar c || c == '(' || c == ')' || c == ',' || c == ':'

theorem isTokenChar_of_isNameChar {c : Char} (inName : isNameChar c = true) : isTokenChar c = true := by
  simp [isTokenChar, inName]

theorem not_isBlank_of_isTokenChar {c : Char} (inToken : isTokenChar c = true) : Text.isBlank c = false := by
  simp only [isTokenChar, Bool.or_eq_true, beq_iff_eq] at inToken
  rcases inToken with (((inName | rfl) | rfl) | rfl) | rfl
  · exact not_isBlank_of_isNameChar inName
  · decide
  · decide
  · decide
  · decide

theorem ne_semicolon_of_isTokenChar {c : Char} (inToken : isTokenChar c = true) : c ≠ ';' := by
  rintro rfl
  cases inToken

theorem not_isDigit_of_isAlpha {c : Char} (letter : c.isAlpha = true) : c.isDigit = false := by
  rw [isAlpha_iff] at letter
  rw [← Bool.not_eq_true, isDigit_iff]
  omega

/-- A nonempty run of characters of names. -/
structure IsWord (text : List Char) : Prop where
  nonempty : text ≠ []
  chars : ∀ c ∈ text, isNameChar c = true

theorem isWord_of_isFunctionName {text : List Char} (named : isFunctionName text = true) : IsWord text := by
  cases text with
  | nil => cases named
  | cons first rest =>
      simp only [isFunctionName, Bool.and_eq_true, List.all_eq_true] at named
      refine ⟨List.cons_ne_nil _ _, List.forall_mem_cons.mpr ⟨?_, named.2⟩⟩
      have initial := named.1
      simp only [Bool.or_eq_true] at initial
      rcases initial with letter | underscore
      · simp [isNameChar, Char.isAlphanum, letter]
      · simp [isNameChar, underscore]

theorem head_of_isFunctionName {text : List Char} (named : isFunctionName text = true) :
    text.head?.any Char.isDigit = false := by
  cases text with
  | nil => rfl
  | cons first rest =>
      simp only [isFunctionName, Bool.and_eq_true, Bool.or_eq_true, beq_iff_eq] at named
      rcases named.1 with letter | rfl
      · exact not_isDigit_of_isAlpha letter
      · rfl

theorem isNameChar_of_isDigit {c : Char} (digit : c.isDigit = true) : isNameChar c = true := by
  simp [isNameChar, Char.isAlphanum, digit]

theorem isWord_toDigits (n : Nat) : IsWord (Nat.toDigits 10 n) where
  nonempty := Nat.toDigits_ne_nil
  chars := fun c member => isNameChar_of_isDigit (Nat.isDigit_of_mem_toDigits (by decide) (by decide) member)

/-! ## Variables, labels and constants -/

/-- The result, or a variable with an index above 0. -/
def Variable.Legible (name : Variable) : Prop :=
  name = .result ∨ name.index ≠ 0

instance : DecidablePred Variable.Legible := fun name =>
  inferInstanceAs (Decidable (name = .result ∨ name.index ≠ 0))

theorem Text.Decimal.index?_toDigits (index : UInt32) : index? (Nat.toDigits 10 index.toNat) = some index := by
  simp [index?, readBelow?_toDigits index.toNat_lt_size]

theorem Text.Decimal.constant?_toDigits (value : UInt64) :
    constant? (Nat.toDigits 10 value.toNat) = some value := by
  simp [constant?, readBelow?_toDigits value.toNat_lt_size]

theorem Text.Decimal.digits_of_constant? {text : List Char} {value : UInt64}
    (read : constant? text = some value) : text ≠ [] ∧ ∀ c ∈ text, c.isDigit = true := by
  obtain ⟨_, bounded, _⟩ := Option.map_eq_some_iff.mp read
  obtain ⟨digits, _⟩ := Option.filter_eq_some_iff.mp bounded
  obtain ⟨⟨nonempty, decimal⟩, _⟩ := Option.ite_none_right_eq_some.mp digits
  exact ⟨nonempty, List.all_eq_true.mp decimal⟩

namespace Variable

theorem read?_render {name : Variable} (legible : name.Legible) : read? name.render.toList = some name := by
  cases name with
  | result => rfl
  | input index | work index =>
      have positive : index ≠ 0 := by simpa [Legible, Variable.index] using legible
      simp [render, read?, Nat.toList_repr, Text.Decimal.index?_toDigits, positive]

theorem legible_of_read? {text : List Char} {name : Variable} (found : read? text = some name) :
    name.Legible := by
  unfold read? at found
  split at found
  · cases found
    exact .inl rfl
  · obtain ⟨index, positive, rfl⟩ := Option.map_eq_some_iff.mp found
    exact .inr (of_decide_eq_true (Option.filter_eq_some_iff.mp positive).2)
  · obtain ⟨index, positive, rfl⟩ := Option.map_eq_some_iff.mp found
    exact .inr (of_decide_eq_true (Option.filter_eq_some_iff.mp positive).2)
  · cases found

theorem isFunctionName_render (name : Variable) : isFunctionName name.render.toList = true := by
  cases name with
  | result => decide
  | input index | work index =>
      have digits := List.all_eq_true.mpr (isWord_toDigits index.toNat).chars
      simpa [render, Nat.toList_repr, isFunctionName, isNameChar] using digits

end Variable

namespace Label

theorem read?_render {label : Label} (nonempty : label ≠ .empty) : read? label.render.toList = some label := by
  cases label with
  | empty => exact absurd rfl nonempty
  | exit => rfl
  | named index =>
      simp [render, read?, Nat.toList_repr, Text.Decimal.index?_toDigits]

theorem ne_empty_of_read? {text : List Char} {label : Label} (found : read? text = some label) :
    label ≠ .empty := by
  rintro rfl
  unfold read? at found
  split at found
  · cases found
  · split at found
    · simp at found
    · cases found

theorem isFunctionName_render {label : Label} (nonempty : label ≠ .empty) :
    isFunctionName label.render.toList = true := by
  cases label with
  | empty => exact absurd rfl nonempty
  | exit => decide
  | named index =>
      have digits := List.all_eq_true.mpr (isWord_toDigits index.toNat).chars
      simpa [render, Nat.toList_repr, isFunctionName, isNameChar] using digits

end Label

/-! ## Mnemonics -/

namespace Kind

theorem toUpper_mnemonic (kind : Kind) : kind.mnemonic.toList.map Char.toUpper = kind.mnemonic.toList := by
  cases kind <;> decide

theorem ofMnemonic?_mnemonic (kind : Kind) : ofMnemonic? kind.mnemonic.toList = some kind := by
  cases kind <;> decide

theorem ofMnemonic?_recased {kind : Kind} {text : List Char}
    (recased : text.map Char.toUpper = kind.mnemonic.toList) : ofMnemonic? text = some kind := by
  rw [← ofMnemonic?_mnemonic kind, ofMnemonic?, ofMnemonic?, recased, toUpper_mnemonic]

theorem isFunctionName_mnemonic (kind : Kind) : isFunctionName kind.mnemonic.toList = true := by
  cases kind <;> decide

theorem directive?_recased {kind : Kind} {text : List Char}
    (recased : text.map Char.toUpper = kind.mnemonic.toList) : Assembly.directive? text = none := by
  simp only [Assembly.directive?, recased]
  cases kind <;> rfl

end Kind

end CounterMachine
