import CounterMachine.Proofs.RoundTrip
set_option autoImplicit false

/-!
# Layout

An instruction can be written in other ways than in a listing: mnemonics and `EXIT` in any case of their letters,
numerals with zeros in front, any blanks between the pieces, around them and inside a call, no blank next to the
parentheses of a call, and a remark at the end of the line. Every piece is still scanned as one token from which
it is read, so every such line is read as the instruction.
-/

namespace CounterMachine

/-! ## Ways to write an instruction -/

/-- Blanks that do not end the line. -/
def Text.IsGap (text : List Char) : Prop :=
  ∀ c ∈ text, isBlank c = true ∧ c ≠ '\n'

instance : DecidablePred Text.IsGap := fun text =>
  List.decidableBAll (fun c => Text.isBlank c = true ∧ c ≠ '\n') text

/-- A word in any case of its letters. -/
def Text.Recased (word text : List Char) : Prop :=
  text.map Char.toUpper = word.map Char.toUpper

instance (word text : List Char) : Decidable (Text.Recased word text) :=
  inferInstanceAs (Decidable (text.map Char.toUpper = word.map Char.toUpper))

/-- A numeral with some zeros in front. -/
def Text.Decimal.Padded (value : Nat) (text : List Char) : Prop :=
  ∃ zeros, text = List.replicate zeros '0' ++ value.repr.toList

inductive Variable.WrittenAs : Variable → List Char → Prop where
  | result : WrittenAs .result ['y']
  | input {index : UInt32} {digits : List Char} (padded : Text.Decimal.Padded index.toNat digits) :
      WrittenAs (.input index) ('x' :: digits)
  | work {index : UInt32} {digits : List Char} (padded : Text.Decimal.Padded index.toNat digits) :
      WrittenAs (.work index) ('z' :: digits)

inductive Label.WrittenAs : Label → List Char → Prop where
  | exit {text : List Char} (recased : Text.Recased "EXIT".toList text) : WrittenAs .exit text
  | named {index : UInt32} {digits : List Char} (padded : Text.Decimal.Padded index.toNat digits) :
      WrittenAs (.named index) ('L' :: digits)

namespace Argument

mutual

/-- An argument without blanks; only the indices of its variables may differ in their zeros. -/
def WrittenAs : Argument → List Char → Prop
  | .var name, text => name.WrittenAs text
  | .call function arguments, text =>
      ∃ rest, WrittenAllAs arguments rest ∧ text = '(' :: (function.toList ++ rest) ++ [')']

def WrittenAllAs : List Argument → List Char → Prop
  | [], text => text = []
  | argument :: others, text =>
      ∃ first rest, argument.WrittenAs first ∧ WrittenAllAs others rest ∧ text = ',' :: first ++ rest

end

end Argument

namespace Assembly

/-- A call may have blanks anywhere between its outer parentheses. -/
inductive Piece.WrittenAs : Piece → List Char → Prop where
  | label {label : Label} {text : List Char} (written : label.WrittenAs text) :
      WrittenAs (.label label) (text ++ [':'])
  | mnemonic {kind : Kind} {text : List Char} (recased : Text.Recased kind.mnemonic.toList text) :
      WrittenAs (.mnemonic kind) text
  | var {name : Variable} {text : List Char} (written : name.WrittenAs text) : WrittenAs (.var name) text
  | constant {value : UInt64} {text : List Char} (padded : Text.Decimal.Padded value.toNat text) :
      WrittenAs (.constant value) text
  | target {label : Label} {text : List Char} (written : label.WrittenAs text) :
      WrittenAs (.target label) text
  | call {call : Call} {inside : List Char}
      (written : call.toArgument.WrittenAs ('(' :: Text.withoutBlanks inside ++ [')']))
      (oneLine : '\n' ∉ inside) : WrittenAs (.call call) ('(' :: inside ++ [')'])

def Piece.isCall : Piece → Bool
  | .call _ => true
  | _ => false

/-- Pieces in a row with blanks between them. Next to a call there may be none. -/
inductive Row : List Piece → List Char → Prop where
  | last {piece : Piece} {text : List Char} (written : piece.WrittenAs text) : Row [piece] text
  | cons {piece next : Piece} {others : List Piece} {text gap rest : List Char}
      (written : piece.WrittenAs text) (blank : Text.IsGap gap)
      (separated : gap = [] → piece.isCall = true ∨ next.isCall = true) (later : Row (next :: others) rest) :
      Row (piece :: next :: others) (text ++ gap ++ rest)

end Assembly

/-- A line with an instruction, blanks around it, and perhaps a remark. -/
inductive Instruction.LaidOut (instruction : Instruction) : List Char → Prop where
  | line {lead row trail remark : List Char} (before : Text.IsGap lead)
      (written : Assembly.Row instruction.pieces row) (after : Text.IsGap trail)
      (ignored : remark = [] ∨ ∃ note, '\n' ∉ note ∧ remark = ';' :: note) :
      LaidOut instruction (lead ++ row ++ trail ++ remark)

/-! ## Words and numerals -/

theorem isAlpha_or_toUpper_eq (c : Char) : c.isAlpha = true ∨ c.toUpper = c := by
  unfold Char.toUpper
  split
  · next lower => exact .inl (isAlpha_iff.mpr (.inr lower))
  · exact .inr rfl

theorem isNameChar_of_toUpper {c : Char} (inName : isNameChar c.toUpper = true) : isNameChar c = true := by
  rcases isAlpha_or_toUpper_eq c with letter | same
  · simp [isNameChar, Char.isAlphanum, letter]
  · rwa [same] at inName

theorem isFunctionName_of_toUpper {text : List Char} (named : isFunctionName (text.map Char.toUpper) = true) :
    isFunctionName text = true := by
  cases text with
  | nil => exact named
  | cons first rest =>
      simp only [List.map_cons, isFunctionName, Bool.and_eq_true, List.all_map, List.all_eq_true] at named ⊢
      refine ⟨?_, fun c member => isNameChar_of_toUpper (named.2 c member)⟩
      rcases isAlpha_or_toUpper_eq first with letter | same
      · simp [letter]
      · rw [← same]
        exact named.1

theorem isFunctionName_of_digits {letter : Char} {digits : List Char} (initial : letter.isAlpha = true)
    (decimal : ∀ c ∈ digits, c.isDigit = true) : isFunctionName (letter :: digits) = true := by
  simp only [isFunctionName, initial, Bool.true_or, Bool.true_and, List.all_eq_true]
  exact fun c member => isNameChar_of_isDigit (decimal c member)

namespace Text.Decimal.Padded

variable {value : Nat} {text : List Char}

theorem digits (padded : Padded value text) : ∀ c ∈ text, c.isDigit = true := by
  obtain ⟨zeros, rfl⟩ := padded
  rw [List.forall_mem_append]
  refine ⟨fun c member => ?_, fun c member => ?_⟩
  · rw [List.eq_of_mem_replicate member]
    rfl
  · rw [Nat.toList_repr] at member
    exact Nat.isDigit_of_mem_toDigits (by decide) (by decide) member

theorem value_eq (padded : Padded value text) : Nat.ofDigitChars 10 text 0 = value := by
  obtain ⟨zeros, rfl⟩ := padded
  induction zeros with
  | zero => rw [List.replicate_zero, List.nil_append, Nat.toList_repr, Nat.ofDigitChars_ten_toDigits]
  | succ zeros ih =>
      rw [List.replicate_succ, List.cons_append, Nat.ofDigitChars_cons]
      exact ih

theorem readBelow? (padded : Padded value text) {bound : Nat} (below : value < bound) :
    Decimal.readBelow? bound text = some value := by
  have nonempty : text ≠ [] := by
    obtain ⟨zeros, rfl⟩ := padded
    simp [Nat.toList_repr, Nat.toDigits_ne_nil]
  have decimal : text.all Char.isDigit = true := List.all_eq_true.mpr padded.digits
  simp [Decimal.readBelow?, Decimal.read?, nonempty, decimal, padded.value_eq, below]

end Text.Decimal.Padded

namespace Variable.WrittenAs

variable {name : Variable} {text : List Char}

theorem isFunctionName (written : name.WrittenAs text) : isFunctionName text = true := by
  cases written with
  | result => rfl
  | input padded | work padded => exact isFunctionName_of_digits rfl padded.digits

theorem spelled (legible : name.Legible) (written : name.WrittenAs text) : name.Spelled text := by
  cases written with
  | result => exact .result
  | @input index digits padded | @work index digits padded =>
      have positive : 0 < index.toNat := by
        refine Nat.pos_of_ne_zero fun zero => ?_
        simp [Legible, Variable.index, ← UInt32.toNat_inj, zero] at legible
      constructor
      · exact List.all_eq_true.mpr padded.digits
      · exact padded.value_eq
      · exact positive

end Variable.WrittenAs

namespace Label.WrittenAs

variable {label : Label} {text : List Char}

theorem isFunctionName (written : label.WrittenAs text) : isFunctionName text = true := by
  cases written with
  | exit recased =>
      refine isFunctionName_of_toUpper ?_
      rw [recased]
      decide
  | named padded => exact isFunctionName_of_digits rfl padded.digits

theorem read? (written : label.WrittenAs text) : Label.read? text = some label := by
  cases written with
  | exit recased =>
      have upper : text.map Char.toUpper = ['E', 'X', 'I', 'T'] := recased
      exact if_pos upper
  | @named index digits padded =>
      have read := padded.readBelow? index.toNat_lt_size
      simp [Label.read?, Text.Decimal.index?, read]

end Label.WrittenAs

/-! ## Calls with blanks -/

/-- Blanks are not parentheses, so they can be put anywhere. -/
theorem balanced_of_withoutBlanks {text : List Char} (balanced : Balanced (Text.withoutBlanks text)) :
    Balanced text := by
  have blanks {gap : List Char} (removed : ∀ c ∈ gap, ¬(!Text.isBlank c) = true) : Balanced gap := by
    induction gap with
    | nil => exact .nil
    | cons c rest ih =>
        rw [List.forall_mem_cons] at removed
        refine .append (.char ?_ ?_) (ih removed.2)
        · rintro rfl
          exact removed.1 rfl
        · rintro rfl
          exact removed.1 rfl
  generalize kept : Text.withoutBlanks text = compact at balanced
  induction balanced generalizing text with
  | nil => exact blanks (List.filter_eq_nil_iff.mp kept)
  | @char c opening closing =>
      obtain ⟨before, after, rfl, front, _, back⟩ := List.filter_eq_cons_iff.mp kept
      exact .append (blanks front) (.append (.char opening closing) (blanks (List.filter_eq_nil_iff.mp back)))
  | append _ _ leftIh rightIh =>
      obtain ⟨left, right, rfl, first, second⟩ := List.filter_eq_append_iff.mp kept
      exact .append (leftIh first) (rightIh second)
  | group _ ih =>
      obtain ⟨start, last, rfl, opened, closed⟩ := List.filter_eq_append_iff.mp kept
      obtain ⟨before, inside, rfl, front, _, inner⟩ := List.filter_eq_cons_iff.mp opened
      obtain ⟨padding, after, rfl, back, _, final⟩ := List.filter_eq_cons_iff.mp closed
      have padded : Balanced (inside ++ padding) := by
        refine ih ?_
        rw [Text.withoutBlanks, List.filter_append, inner, List.filter_eq_nil_iff.mpr back, List.append_nil]
      have grouped : Balanced (before ++ ('(' :: (inside ++ padding) ++ [')']) ++ after) :=
        .append (.append (blanks front) (.group padded)) (blanks (List.filter_eq_nil_iff.mp final))
      simpa using grouped

namespace Argument

theorem WrittenAllAs.exists_phrases {arguments : List Argument} {text : List Char}
    (written : WrittenAllAs arguments text)
    (each : ∀ argument ∈ arguments, ∀ text, argument.WrittenAs text →
      ∃ phrase : Phrase, phrase.text = text ∧ phrase.argument = argument) :
    ∃ phrases, Phrase.textAll phrases = text ∧ Phrase.argumentAll phrases = arguments := by
  induction arguments generalizing text with
  | nil =>
      rw [WrittenAllAs] at written
      exact ⟨[], written.symm, rfl⟩
  | cons argument others ih =>
      rw [WrittenAllAs] at written
      obtain ⟨first, rest, writtenFirst, writtenRest, rfl⟩ := written
      rw [List.forall_mem_cons] at each
      obtain ⟨phrase, rfl, rfl⟩ := each.1 first writtenFirst
      obtain ⟨phrases, rfl, rfl⟩ := ih writtenRest each.2
      exact ⟨phrase :: phrases, rfl, rfl⟩

/-- However a legible argument is written, the grammar derives the text. -/
theorem WrittenAs.exists_phrase {argument : Argument} {text : List Char} (legible : argument.Legible)
    (written : argument.WrittenAs text) :
    ∃ phrase : Phrase, phrase.text = text ∧ phrase.argument = argument := by
  induction argument using induction generalizing text with
  | var name =>
      rw [WrittenAs] at written
      exact ⟨.var text name (written.spelled (legible.vars name (by simp [Argument.vars]))), rfl, rfl⟩
  | call function arguments ih =>
      rw [WrittenAs] at written
      obtain ⟨rest, writtenAll, rfl⟩ := written
      obtain ⟨named, each⟩ := legible_call.mp legible
      obtain ⟨phrases, rfl, rfl⟩ := WrittenAllAs.exists_phrases writtenAll fun argument member _ =>
        ih argument member (each argument member)
      exact ⟨.call function.toList named phrases, rfl, by rw [Phrase.argument, String.ofList_toList]⟩

end Argument

namespace Assembly

/-! ## Pieces and rows -/

namespace Piece

variable {piece : Piece} {text : List Char}

theorem WrittenAs.read_call {call : Call} {inside : List Char} (legible : call.toArgument.Legible)
    (written : call.toArgument.WrittenAs ('(' :: Text.withoutBlanks inside ++ [')'])) :
    Call.read ('(' :: inside ++ [')']) = .ok call ∧ Balanced inside ∧
      ∀ c ∈ inside, isTokenChar c = true ∨ Text.isBlank c = true := by
  obtain ⟨phrase, same, stands⟩ := written.exists_phrase legible
  have compact : Text.withoutBlanks ('(' :: inside ++ [')']) = '(' :: Text.withoutBlanks inside ++ [')'] := by
    have blank : Text.isBlank '(' = false ∧ Text.isBlank ')' = false := by decide
    simp [Text.withoutBlanks, blank]
  refine ⟨?_, balanced_of_withoutBlanks ?_, fun c member => ?_⟩
  · rw [Call.read, compact]
    exact Call.readCompact_iff.mpr ⟨phrase, same, stands⟩
  · cases phrase with
    | var => cases stands
    | call name named phrases =>
        rw [Phrase.text] at same
        rw [← List.append_cancel_right (List.cons.inj same).2]
        exact Phrase.balanced_inside named phrases
  · cases blank : Text.isBlank c with
    | true => exact .inr rfl
    | false =>
        refine .inl (phrase.chars c ?_)
        simp [same, Text.withoutBlanks, member, blank]

/-- Every way to write a piece is scanned as a token from which the piece is read. What comes after a call need
not end a word. -/
theorem WrittenAs.exists_token (legible : piece.Legible) (written : piece.WrittenAs text) :
    ∃ token, piece.Reads token ∧ ∀ rest, piece.isCall = true ∨ Token.AtWordEnd rest →
      Token.scan (text ++ rest) = (Token.scan rest).map (token :: ·) := by
  have word {token : Token} {text : List Char} (noCall : piece.isCall = false)
      (scanned : Token.Scanned token text) : ∀ rest, piece.isCall = true ∨ Token.AtWordEnd rest →
        Token.scan (text ++ rest) = (Token.scan rest).map (token :: ·) := by
    intro rest ends
    exact scanned rest (ends.resolve_left (by simp [noCall]))
  cases written with
  | label written =>
      exact ⟨_, .label written.read?,
        word rfl (Token.scanned_label (isWord_of_isFunctionName written.isFunctionName))⟩
  | @mnemonic kind _ recased =>
      have upper : text.map Char.toUpper = kind.mnemonic.toList := recased.trans kind.toUpper_mnemonic
      have named : isFunctionName text = true :=
        isFunctionName_of_toUpper (upper ▸ kind.isFunctionName_mnemonic)
      exact ⟨_, .mnemonic upper, word rfl (Token.scanned_word named)⟩
  | var written =>
      exact ⟨_, .var (Variable.read?_eq_some.mpr (written.spelled legible)),
        word rfl (Token.scanned_word written.isFunctionName)⟩
  | @constant value _ padded =>
      have read : Text.Decimal.constant? text = some value := by
        simp [Text.Decimal.constant?, padded.readBelow? value.toNat_lt_size]
      exact ⟨_, .constant value, word rfl (Token.scanned_number read)⟩
  | target written =>
      exact ⟨_, .target written.read?, word rfl (Token.scanned_word written.isFunctionName)⟩
  | call written oneLine =>
      obtain ⟨read, balanced, _⟩ := read_call legible written
      exact ⟨_, .call read, fun rest _ => Token.scan_call balanced rest⟩

end Piece

/-- A character of a line before the remark. -/
def IsInline (c : Char) : Prop :=
  isTokenChar c = true ∨ Text.isBlank c = true ∧ c ≠ '\n'

theorem IsInline.ne {c : Char} (inline : IsInline c) : c ≠ ';' ∧ c ≠ '\n' := by
  rcases inline with inToken | ⟨blank, sameLine⟩
  · refine ⟨ne_semicolon_of_isTokenChar inToken, ?_⟩
    rintro rfl
    cases inToken
  · refine ⟨?_, sameLine⟩
    rintro rfl
    cases blank

theorem Piece.WrittenAs.chars {piece : Piece} {text : List Char} (legible : piece.Legible)
    (written : piece.WrittenAs text) : ∀ c ∈ text, IsInline c := by
  have word {text : List Char} (named : isFunctionName text = true) : ∀ c ∈ text, IsInline c :=
    fun c member => .inl ((Token.spelled_word named).chars c member)
  cases written with
  | label written =>
      rw [List.forall_mem_append, List.forall_mem_singleton]
      exact ⟨word written.isFunctionName, .inl rfl⟩
  | @mnemonic kind _ recased =>
      exact word (isFunctionName_of_toUpper (recased.trans kind.toUpper_mnemonic ▸ kind.isFunctionName_mnemonic))
  | var written => exact word written.isFunctionName
  | constant padded =>
      exact fun c member => .inl (isTokenChar_of_isNameChar (isNameChar_of_isDigit (padded.digits c member)))
  | target written => exact word written.isFunctionName
  | call written oneLine =>
      rw [List.forall_mem_append, List.forall_mem_cons, List.forall_mem_singleton]
      refine ⟨⟨.inl rfl, fun c member => ?_⟩, .inl rfl⟩
      exact ((read_call legible written).2.2 c member).imp_right
        fun blank => ⟨blank, fun feed => oneLine (feed ▸ member)⟩

namespace Row

variable {pieces : List Piece} {text trail : List Char}

theorem chars (row : Row pieces text) (legible : ∀ piece ∈ pieces, piece.Legible) : ∀ c ∈ text, IsInline c := by
  induction row with
  | last written => exact written.chars (legible _ List.mem_cons_self)
  | cons written blank separated later ih =>
      rw [List.forall_mem_cons] at legible
      rw [List.forall_mem_append, List.forall_mem_append]
      exact ⟨⟨written.chars legible.1, fun c member => .inr (blank c member)⟩, ih legible.2⟩

theorem atWordEnd_of_gap {gap : List Char} (blank : Text.IsGap gap) (nonempty : gap ≠ []) (rest : List Char) :
    Token.AtWordEnd (gap ++ rest) := by
  obtain ⟨c, more, rfl⟩ := List.exists_cons_of_ne_nil nonempty
  exact Token.atWordEnd_cons (by simp [Token.endsWord, (blank c List.mem_cons_self).1]) _

/-- A call starts with a parenthesis, which ends the word before it. -/
theorem atWordEnd {piece : Piece} {others : List Piece} (row : Row (piece :: others) text)
    (call : piece.isCall = true) : Token.AtWordEnd (text ++ trail) := by
  have start {text : List Char} (written : piece.WrittenAs text) (rest : List Char) :
      Token.AtWordEnd (text ++ rest) := by
    cases written with
    | call written oneLine => exact Token.atWordEnd_cons rfl _
    | label | mnemonic | var | constant | target => cases call
  cases row with
  | last written => exact start written _
  | cons written =>
      rw [List.append_assoc, List.append_assoc]
      exact start written _

/-- A row is scanned as tokens from which its pieces are read. -/
theorem exists_tokens (row : Row pieces text) (legible : ∀ piece ∈ pieces, piece.Legible)
    (after : Text.IsGap trail) :
    ∃ tokens, List.Forall₂ Piece.Reads pieces tokens ∧ Token.scan (text ++ trail) = .ok tokens := by
  induction row with
  | last written =>
      obtain ⟨token, reads, scanned⟩ := written.exists_token (legible _ List.mem_cons_self)
      have ends : Token.AtWordEnd trail := by
        by_cases none : trail = []
        · exact none ▸ Token.atWordEnd_nil
        · simpa using atWordEnd_of_gap after none []
      have blank : Token.scan trail = .ok [] := by
        have skipped := Token.scan_blanks (fun c member => (after c member).1) []
        rwa [List.append_nil, Token.scan_nil] at skipped
      refine ⟨[token], .cons reads .nil, ?_⟩
      rw [scanned trail (.inr ends), blank]
      rfl
  | @cons piece next others text gap rest written blank separated later ih =>
      rw [List.forall_mem_cons] at legible
      obtain ⟨token, reads, scanned⟩ := written.exists_token legible.1
      obtain ⟨tokens, readsOthers, scannedRest⟩ := ih legible.2
      -- Without blanks, the piece or the next one is a call.
      have ends : piece.isCall = true ∨ Token.AtWordEnd (gap ++ (rest ++ trail)) := by
        by_cases none : gap = []
        · subst none
          exact (separated rfl).imp_right later.atWordEnd
        · exact .inr (atWordEnd_of_gap blank none _)
      refine ⟨token :: tokens, .cons reads readsOthers, ?_⟩
      rw [List.append_assoc, List.append_assoc, scanned _ ends,
        Token.scan_blanks fun c member => (blank c member).1, scannedRest]
      rfl

end Row

end Assembly

namespace Instruction.LaidOut

variable {instruction : Instruction} {line : List Char}

/-- However an instruction is laid out, it is read from its line. -/
theorem ofLine? (laidOut : instruction.LaidOut line) (legible : instruction.operation.Legible) :
    Assembly.Statement.ofLine? line = .ok (some (.instruction instruction)) := by
  cases laidOut with
  | @line lead row trail remark before written after ignored =>
      have pieces := legible_pieces legible
      obtain ⟨tokens, reads, scanned⟩ := written.exists_tokens pieces after
      have inline : ∀ c ∈ lead ++ row ++ trail, Assembly.IsInline c := by
        rw [List.forall_mem_append, List.forall_mem_append]
        exact ⟨⟨fun c member => .inr (before c member), written.chars pieces⟩,
          fun c member => .inr (after c member)⟩
      have uncommented : (lead ++ row ++ trail ++ remark).takeWhile (· ≠ ';') = lead ++ row ++ trail := by
        rw [List.takeWhile_append_of_pos fun c member => by simpa using (inline c member).ne.1]
        rcases ignored with rfl | ⟨note, _, rfl⟩ <;> simp
      rw [Assembly.Statement.ofLine?, Assembly.Token.ofLine, uncommented, List.append_assoc,
        Assembly.Token.scan_blanks fun c member => (before c member).1, scanned]
      exact Assembly.statement?_of_reads reads

theorem oneLine (laidOut : instruction.LaidOut line) (legible : instruction.operation.Legible) :
    '\n' ∉ line := by
  have feed {text : List Char} (inline : ∀ c ∈ text, Assembly.IsInline c) : '\n' ∉ text :=
    fun member => (inline _ member).ne.2 rfl
  cases laidOut with
  | @line lead row trail remark before written after ignored =>
      have note : '\n' ∉ remark := by
        rcases ignored with rfl | ⟨note, absent, rfl⟩
        · exact List.not_mem_nil
        · simpa using absent
      simp only [List.mem_append, not_or]
      exact ⟨⟨⟨feed fun c member => .inr (before c member), feed (written.chars (legible_pieces legible))⟩,
        feed fun c member => .inr (after c member)⟩, note⟩

end Instruction.LaidOut

/-! ## Listings are laid out -/

theorem Text.Decimal.padded_repr (value : Nat) : Padded value value.repr.toList :=
  ⟨0, rfl⟩

theorem Variable.writtenAs_render (name : Variable) : name.WrittenAs name.render.toList := by
  cases name with
  | result => exact .result
  | input index =>
      rw [render, String.toList_append]
      exact .input (Text.Decimal.padded_repr _)
  | work index =>
      rw [render, String.toList_append]
      exact .work (Text.Decimal.padded_repr _)

theorem Label.writtenAs_render {label : Label} (nonempty : label ≠ .empty) :
    label.WrittenAs label.render.toList := by
  cases label with
  | empty => exact absurd rfl nonempty
  | exit => exact .exit rfl
  | named index =>
      rw [render, String.toList_append]
      exact .named (Text.Decimal.padded_repr _)

theorem Argument.writtenAllAs_render {arguments : List Argument}
    (each : ∀ argument ∈ arguments, argument.WrittenAs argument.text) :
    WrittenAllAs arguments (arguments.flatMap fun argument => ',' :: argument.text) := by
  induction arguments with
  | nil =>
      rw [WrittenAllAs]
      rfl
  | cons argument others ih =>
      rw [List.forall_mem_cons] at each
      rw [WrittenAllAs]
      exact ⟨_, _, each.1, ih each.2, by rw [List.flatMap_cons]⟩

theorem Argument.writtenAs_text (argument : Argument) : argument.WrittenAs argument.text := by
  induction argument using Argument.induction with
  | var name =>
      rw [WrittenAs, text_var]
      exact name.writtenAs_render
  | call function arguments ih =>
      rw [WrittenAs]
      exact ⟨_, writtenAllAs_render ih, text_call function arguments⟩

namespace Assembly

theorem Piece.Legible.writtenAs_render {piece : Piece} (legible : piece.Legible) :
    piece.WrittenAs piece.render.toList := by
  cases piece with
  | label label =>
      rw [render, String.toList_append]
      exact .label (Label.writtenAs_render legible)
  | mnemonic kind => exact .mnemonic rfl
  | var name => exact .var name.writtenAs_render
  | constant value => exact .constant (Text.Decimal.padded_repr _)
  | target label => exact .target (Label.writtenAs_render legible)
  | call call =>
      have written := call.toArgument.writtenAs_text
      have same : call.toArgument.text = '(' :: Argument.inside call.function call.arguments ++ [')'] :=
        Argument.text_call call.function call.arguments
      have compact : ∀ c ∈ Argument.inside call.function call.arguments, Text.isBlank c = false := by
        intro c member
        refine not_isBlank_of_isTokenChar (Argument.Legible.chars legible c ?_)
        simp [same, member]
      have kept : Text.withoutBlanks (Argument.inside call.function call.arguments) =
          Argument.inside call.function call.arguments :=
        List.filter_eq_self.mpr fun c member => by simp [compact c member]
      rw [same] at written
      change Piece.WrittenAs _ call.toArgument.text
      rw [same]
      refine .call (by rwa [kept]) fun member => ?_
      cases compact _ member

theorem row_render {piece : Piece} {others : List Piece}
    (legible : ∀ other ∈ piece :: others, other.Legible) :
    Row (piece :: others) (" ".intercalate ((piece :: others).map Piece.render)).toList := by
  induction others generalizing piece with
  | nil =>
      rw [List.forall_mem_cons] at legible
      rw [List.map_singleton, String.intercalate_singleton]
      exact .last legible.1.writtenAs_render
  | cons next others ih =>
      rw [List.forall_mem_cons] at legible
      have space : Text.IsGap [' '] := by
        intro c member
        rw [List.mem_singleton.mp member]
        decide
      have row := Row.cons legible.1.writtenAs_render space nofun (ih legible.2)
      simpa [List.intercalate_cons_cons] using row

end Assembly

theorem Instruction.laidOut_listing {instruction : Instruction} (legible : instruction.operation.Legible) :
    instruction.LaidOut instruction.listing.toList := by
  have none : Text.IsGap [] := nofun
  obtain ⟨piece, others, same⟩ : ∃ piece others, instruction.pieces = piece :: others :=
    List.exists_cons_of_ne_nil (by simp [pieces])
  have row : Assembly.Row instruction.pieces instruction.listing.toList := by
    have pieces := legible_pieces legible
    rw [listing_eq]
    rw [same] at pieces ⊢
    exact Assembly.row_render pieces
  have line := LaidOut.line none row none (.inl rfl)
  rwa [List.nil_append, List.append_nil, List.append_nil] at line

/-! ## Reading one line -/

theorem Text.linesFrom_of_not_mem {text : List Char} (absent : '\n' ∉ text) {current : List Char}
    (nonempty : current.reverse ++ text ≠ []) : linesFrom current text = [current.reverse ++ text] := by
  induction text generalizing current with
  | nil =>
      rw [List.append_nil] at nonempty ⊢
      cases current with
      | nil => exact absurd rfl nonempty
      | cons c rest => rfl
  | cons c rest ih =>
      rw [List.mem_cons, not_or] at absent
      rw [linesFrom, if_neg fun same => absent.1 same.symm, ih absent.2 (by simp)]
      simp

theorem Source.assemble_line {line : String} {instruction : Instruction} (oneLine : '\n' ∉ line.toList)
    (read : Assembly.Statement.ofLine? line.toList = .ok (some (.instruction instruction))) :
    Source.assemble line = .ok ⟨⟨"Main", [instruction]⟩, []⟩ := by
  have nonempty : line.toList ≠ [] := by
    intro empty
    rw [empty, Assembly.Statement.ofLine?, Assembly.Token.ofLine, List.takeWhile_nil,
      Assembly.Token.scan_nil] at read
    cases read
  have lines : Text.lines line.toList = [line.toList] := Text.linesFrom_of_not_mem oneLine nonempty
  rw [Source.assemble, lines, Assembly.Progress.addLines, Assembly.Progress.addLine, read]
  rfl

/-- A line may be laid out in any way: it is read as its instruction. -/
theorem Source.layout_irrelevant {instruction : Instruction} (legible : instruction.operation.Legible) :
    instruction.LaidOut instruction.listing.toList ∧
    ∀ line : String, instruction.LaidOut line.toList →
      Source.assemble line = .ok ⟨⟨"Main", [instruction]⟩, []⟩ :=
  ⟨Instruction.laidOut_listing legible,
    fun _ laidOut => assemble_line (laidOut.oneLine legible) (laidOut.ofLine? legible)⟩

/-- A jump on the value of a nested call. -/
def nestedJump : Instruction :=
  ⟨.named 7, .jumpEqualFunction (.input 1) ⟨"Add", [.var (.work 2), .call "Next" []]⟩ .exit⟩

theorem nestedJump_layout_irrelevant : nestedJump.operation.Legible ∧
    Source.assemble "\tL007:\u00a0 jump_Equal_function x01( Add, z 002 ,(Next))exit ; (no, remark" =
      .ok ⟨⟨"Main", [nestedJump]⟩, []⟩ := by
  have legible : nestedJump.operation.Legible := by decide
  have label : (Assembly.Piece.label (.named 7)).WrittenAs "L007:".toList := .label (.named ⟨2, rfl⟩)
  have mnemonic : (Assembly.Piece.mnemonic .jumpEqualFunction).WrittenAs "jump_Equal_function".toList :=
    .mnemonic (by decide +kernel)
  have subject : (Assembly.Piece.var (.input 1)).WrittenAs "x01".toList := .var (.input ⟨1, rfl⟩)
  have call : (Assembly.Piece.call ⟨"Add", [.var (.work 2), .call "Next" []]⟩).WrittenAs
      ('(' :: " Add, z 002 ,(Next)".toList ++ [')']) :=
    .call ⟨_, ⟨_, _, .work ⟨2, rfl⟩, ⟨_, _, ⟨[], rfl, rfl⟩, rfl, rfl⟩, rfl⟩, rfl⟩ (by decide)
  have target : (Assembly.Piece.target .exit).WrittenAs "exit".toList := .target (.exit rfl)
  have row : Assembly.Row nestedJump.pieces _ :=
    .cons label (by decide : Text.IsGap ['\u00a0', ' ']) nofun
      (.cons mnemonic (by decide : Text.IsGap [' ']) nofun
        (.cons subject (by decide : Text.IsGap []) (fun _ => .inr rfl)
          (.cons call (by decide : Text.IsGap []) (fun _ => .inl rfl) (.last target))))
  have line := Instruction.LaidOut.line (by decide : Text.IsGap ['\t']) row (by decide : Text.IsGap [' '])
    (.inr ⟨" (no, remark".toList, by decide, rfl⟩)
  rw [← String.toList_ofList (l := _ ++ _)] at line
  exact ⟨legible, (Source.layout_irrelevant legible).2 _ line⟩

end CounterMachine
