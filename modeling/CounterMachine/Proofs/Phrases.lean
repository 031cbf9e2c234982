import CounterMachine.Proofs.Spelling
set_option autoImplicit false

/-!
# Grammar of calls

A call is written as `'(' name (',' argument)* ')'`, and an argument as a variable or a call. Reading divides
the text of a call at the commas outside inner parentheses. The text of a phrase has matching parentheses, so a
scan that counts them passes over a phrase as a whole, and the division restores the phrases: what is read is
exactly what the grammar derives, and no text has two derivations.
-/

namespace CounterMachine

/-! ## Matching parentheses -/

/-- Text in which every parenthesis has its partner. -/
inductive Balanced : List Char → Prop where
  | nil : Balanced []
  | char {c : Char} (opening : c ≠ '(') (closing : c ≠ ')') : Balanced [c]
  | append {first second : List Char} (left : Balanced first) (right : Balanced second) :
      Balanced (first ++ second)
  | group {inside : List Char} (inner : Balanced inside) : Balanced ('(' :: inside ++ [')'])

theorem balanced_of_chars {text : List Char} (chars : ∀ c ∈ text, isNameChar c = true) : Balanced text := by
  induction text with
  | nil => exact .nil
  | cons c rest ih =>
      have inName := chars c List.mem_cons_self
      exact .append (.char (ne_of_isNameChar inName rfl) (ne_of_isNameChar inName rfl))
        (ih fun c member => chars c (List.mem_cons_of_mem _ member))

/-- Balanced text does not close a call that was opened before it. -/
theorem Balanced.splitCall? {text : List Char} (balanced : Balanced text) (depth : Nat) (rest : List Char) :
    Assembly.Token.splitCall? depth (text ++ rest) =
      (Assembly.Token.splitCall? depth rest).map fun parts => (text ++ parts.1, parts.2) := by
  induction balanced generalizing depth rest with
  | nil => simp
  | char opening closing => simp [Assembly.Token.splitCall?, opening, closing]
  | append _ _ leftIh rightIh => simp [leftIh, rightIh, Function.comp_def]
  | group _ ih => simp [Assembly.Token.splitCall?, ih, Function.comp_def]

namespace Call

/-- Inside parentheses, balanced text belongs to one piece. -/
theorem pieces?_balanced {text : List Char} (balanced : Balanced text) {depth : Nat}
    {rest piece : List Char} {others : List (List Char)}
    (divided : pieces? (depth + 1) rest = some (piece :: others)) :
    pieces? (depth + 1) (text ++ rest) = some ((text ++ piece) :: others) := by
  induction balanced generalizing depth rest piece with
  | nil => exact divided
  | char opening closing => simp [pieces?, opening, closing, divided]
  | append _ _ leftIh rightIh =>
      rw [List.append_assoc, List.append_assoc]
      exact leftIh (rightIh divided)
  | group _ ih =>
      have closed : pieces? (depth + 1 + 1) (')' :: rest) = some ((')' :: piece) :: others) := by
        simp [pieces?, divided]
      simp [pieces?, ih closed]

theorem pieces?_of_chars {text : List Char} (chars : ∀ c ∈ text, isNameChar c = true)
    {rest piece : List Char} {others : List (List Char)}
    (divided : pieces? 0 rest = some (piece :: others)) :
    pieces? 0 (text ++ rest) = some ((text ++ piece) :: others) := by
  induction text with
  | nil => exact divided
  | cons c text ih =>
      have inName := chars c List.mem_cons_self
      have comma : c ≠ ',' := ne_of_isNameChar inName rfl
      have opening : c ≠ '(' := ne_of_isNameChar inName rfl
      have closing : c ≠ ')' := ne_of_isNameChar inName rfl
      simp [pieces?, comma, opening, closing, ih fun c member => chars c (List.mem_cons_of_mem _ member)]

/-- The pieces with a comma before each make up the text with a comma before it. -/
theorem text_of_pieces? {depth : Nat} {text : List Char} {parts : List (List Char)}
    (divided : pieces? depth text = some parts) : ',' :: text = parts.flatMap (',' :: ·) := by
  induction text generalizing depth parts with
  | nil =>
      simp only [pieces?, Option.ite_none_right_eq_some, Option.some.injEq] at divided
      obtain ⟨_, rfl⟩ := divided
      rfl
  | cons c rest ih =>
      rw [pieces?] at divided
      split at divided
      · next comma =>
          obtain ⟨others, dividedRest, rfl⟩ := Option.map_eq_some_iff.mp divided
          rw [List.flatMap_cons, ← ih dividedRest, comma.1]
          rfl
      · dsimp only at divided
        split at divided
        · cases divided
        · split at divided
          · next piece others dividedRest =>
              cases divided
              have whole := ih dividedRest
              simp only [List.flatMap_cons, List.cons_append, List.cons.injEq, true_and] at whole ⊢
              exact whole
          · cases divided

theorem text_of_inner? {text inside : List Char} (enclosed : inner? text = some inside) :
    text = '(' :: inside ++ [')'] := by
  unfold inner? at enclosed
  split at enclosed
  · next rest =>
      obtain ⟨closing, same⟩ := Option.ite_none_right_eq_some.mp enclosed
      obtain ⟨inside, rfl⟩ := List.getLast?_eq_some_iff.mp closing
      cases same
      simp
  · cases enclosed

theorem inner?_parenthesised (inside : List Char) : inner? ('(' :: inside ++ [')']) = some inside := by
  simp [inner?]

end Call

/-! ## Phrases -/

/-- A variable is spelled `y`, or `x` or `z` with the digits of its index, which is above 0. The digits may
start with zeros. -/
inductive Variable.Spelled : List Char → Variable → Prop where
  | result : Spelled ['y'] .result
  | input {digits : List Char} {index : UInt32} (decimal : digits.all Char.isDigit = true)
      (value : Nat.ofDigitChars 10 digits 0 = index.toNat) (positive : 0 < index.toNat) :
      Spelled ('x' :: digits) (.input index)
  | work {digits : List Char} {index : UInt32} (decimal : digits.all Char.isDigit = true)
      (value : Nat.ofDigitChars 10 digits 0 = index.toNat) (positive : 0 < index.toNat) :
      Spelled ('z' :: digits) (.work index)

namespace Variable

theorem index?_eq_some {digits : List Char} {index : UInt32} :
    (Text.Decimal.index? digits).filter (· ≠ 0) = some index ↔
      digits.all Char.isDigit = true ∧ Nat.ofDigitChars 10 digits 0 = index.toNat ∧ 0 < index.toNat := by
  constructor
  · intro found
    obtain ⟨converted, nonzero⟩ := Option.filter_eq_some_iff.mp found
    obtain ⟨value, bounded, rfl⟩ := Option.map_eq_some_iff.mp converted
    obtain ⟨read, below⟩ := Option.filter_eq_some_iff.mp bounded
    obtain ⟨⟨_, decimal⟩, same⟩ := Option.ite_none_right_eq_some.mp read
    have kept : (UInt32.ofNat value).toNat = value := UInt32.toNat_ofNat_of_lt (of_decide_eq_true below)
    refine ⟨decimal, (Option.some.inj same).trans kept.symm, Nat.pos_of_ne_zero fun zero => ?_⟩
    exact of_decide_eq_true nonzero (UInt32.toNat_inj.mp zero)
  · rintro ⟨decimal, value, positive⟩
    have nonempty : digits ≠ [] := by
      rintro rfl
      rw [← value] at positive
      cases positive
    have nonzero : index ≠ 0 := by
      rintro rfl
      cases positive
    have read : Text.Decimal.read? digits = some index.toNat := by
      rw [Text.Decimal.read?, if_pos ⟨nonempty, decimal⟩, value]
    have bounded : Text.Decimal.readBelow? UInt32.size digits = some index.toNat := by
      simp [Text.Decimal.readBelow?, read, index.toNat_lt_size]
    simp [Text.Decimal.index?, bounded, nonzero]

theorem read?_eq_some {text : List Char} {name : Variable} : read? text = some name ↔ name.Spelled text := by
  constructor
  · intro found
    unfold read? at found
    split at found
    · cases found
      exact .result
    · obtain ⟨index, positive, rfl⟩ := Option.map_eq_some_iff.mp found
      obtain ⟨decimal, value, positive⟩ := index?_eq_some.mp positive
      exact .input decimal value positive
    · obtain ⟨index, positive, rfl⟩ := Option.map_eq_some_iff.mp found
      obtain ⟨decimal, value, positive⟩ := index?_eq_some.mp positive
      exact .work decimal value positive
    · cases found
  · intro spelled
    cases spelled with
    | result => rfl
    | input decimal value positive | work decimal value positive =>
        simp only [read?, index?_eq_some.mpr ⟨decimal, value, positive⟩, Option.map_some]

theorem Spelled.unique {text : List Char} {name other : Variable} (spelled : name.Spelled text)
    (otherSpelled : other.Spelled text) : name = other :=
  Option.some.inj ((read?_eq_some.mpr spelled).symm.trans (read?_eq_some.mpr otherSpelled))

theorem Spelled.isWord {text : List Char} {name : Variable} (spelled : name.Spelled text) : IsWord text := by
  cases spelled with
  | result => exact ⟨nofun, List.forall_mem_singleton.mpr rfl⟩
  | input decimal _ _ | work decimal _ _ =>
      refine ⟨nofun, List.forall_mem_cons.mpr ⟨rfl, fun c member => ?_⟩⟩
      exact isNameChar_of_isDigit (List.all_eq_true.mp decimal c member)

end Variable

/-- A derivation of an argument: a variable, or a call with the derivations of its arguments. -/
inductive Phrase where
  | var (spelling : List Char) (name : Variable) (spelled : name.Spelled spelling)
  | call (name : List Char) (named : isFunctionName name = true) (arguments : List Phrase)

namespace Phrase

mutual

/-- The text that is derived. -/
def text : Phrase → List Char
  | .var spelling _ _ => spelling
  | .call name _ arguments => '(' :: (name ++ textAll arguments) ++ [')']

/-- The texts of some phrases, a comma before each. -/
def textAll : List Phrase → List Char
  | [] => []
  | phrase :: rest => ',' :: phrase.text ++ textAll rest

end

mutual

/-- The argument that a phrase stands for. -/
def argument : Phrase → Argument
  | .var _ name _ => .var name
  | .call name _ arguments => .call (String.ofList name) (argumentAll arguments)

def argumentAll : List Phrase → List Argument
  | [] => []
  | phrase :: rest => phrase.argument :: argumentAll rest

end

/-- Induction over a phrase, with the hypothesis for all arguments of a call. -/
theorem induction {P : Phrase → Prop}
    (var : ∀ spelling name (spelled : name.Spelled spelling), P (.var spelling name spelled))
    (call : ∀ name (named : isFunctionName name = true) arguments, (∀ phrase ∈ arguments, P phrase) →
      P (.call name named arguments)) : ∀ phrase, P phrase := by
  refine @Phrase.rec P (fun arguments => ∀ phrase ∈ arguments, P phrase) var call ?_ ?_
  · simp
  · intro phrase rest first others
    exact List.forall_mem_cons.mpr ⟨first, others⟩

theorem textAll_eq_flatMap (phrases : List Phrase) :
    textAll phrases = (phrases.map text).flatMap (',' :: ·) := by
  induction phrases with
  | nil => rfl
  | cons phrase rest ih => rw [textAll, ih, List.map_cons, List.flatMap_cons]

theorem argumentAll_eq_map (phrases : List Phrase) : argumentAll phrases = phrases.map argument := by
  induction phrases with
  | nil => rfl
  | cons phrase rest ih => rw [argumentAll, ih, List.map_cons]

/-! ## Texts of phrases -/

theorem balanced_textAll {phrases : List Phrase} (each : ∀ phrase ∈ phrases, Balanced phrase.text) :
    Balanced (textAll phrases) := by
  induction phrases with
  | nil => exact .nil
  | cons phrase rest ih =>
      rw [List.forall_mem_cons] at each
      exact .append (.append (.char (c := ',') (by decide) (by decide)) each.1) (ih each.2)

theorem balanced (phrase : Phrase) : Balanced phrase.text := by
  induction phrase using Phrase.induction with
  | var spelling name spelled => exact balanced_of_chars spelled.isWord.chars
  | call name named arguments ih =>
      have inName := balanced_of_chars (isWord_of_isFunctionName named).chars
      exact .group (.append inName (balanced_textAll ih))

theorem balanced_inside {name : List Char} (named : isFunctionName name = true) (arguments : List Phrase) :
    Balanced (name ++ textAll arguments) :=
  .append (balanced_of_chars (isWord_of_isFunctionName named).chars)
    (balanced_textAll fun phrase _ => phrase.balanced)

theorem chars (phrase : Phrase) : ∀ c ∈ phrase.text, isTokenChar c = true := by
  induction phrase using Phrase.induction with
  | var spelling name spelled =>
      exact fun c member => isTokenChar_of_isNameChar (spelled.isWord.chars c member)
  | call name named arguments ih =>
      have inName := (isWord_of_isFunctionName named).chars
      intro c member
      simp only [text, textAll_eq_flatMap, List.cons_append, List.mem_cons, List.mem_append, List.mem_flatMap,
        List.mem_map, exists_exists_and_eq_and, List.not_mem_nil, or_false] at member
      rcases member with rfl | (member | ⟨phrase, inArguments, rfl | member⟩) | rfl
      · rfl
      · exact isTokenChar_of_isNameChar (inName c member)
      · rfl
      · exact ih phrase inArguments c member
      · rfl

theorem text_ne_nil (phrase : Phrase) : phrase.text ≠ [] := by
  cases phrase with
  | var spelling name spelled => exact spelled.isWord.nonempty
  | call name named arguments => exact nofun

theorem head?_text_var {spelling : List Char} {name : Variable} (spelled : name.Spelled spelling) :
    spelling.head? ≠ some '(' := by
  intro same
  cases spelled.isWord.chars '(' (List.mem_of_mem_head? same)

theorem pieces?_text (phrase : Phrase) {rest piece : List Char} {others : List (List Char)}
    (divided : Call.pieces? 0 rest = some (piece :: others)) :
    Call.pieces? 0 (phrase.text ++ rest) = some ((phrase.text ++ piece) :: others) := by
  cases phrase with
  | var spelling name spelled => exact Call.pieces?_of_chars spelled.isWord.chars divided
  | call name named arguments =>
      have inside := balanced_inside named arguments
      rw [text]
      generalize name ++ textAll arguments = content at inside
      have closed : Call.pieces? (0 + 1) (')' :: rest) = some ((')' :: piece) :: others) := by
        simp [Call.pieces?, divided]
      have opened := Call.pieces?_balanced inside closed
      simp [Call.pieces?, opened]

/-- The commas between the arguments divide the text of a call. -/
theorem pieces?_inside {name : List Char} (named : isFunctionName name = true) (arguments : List Phrase) :
    Call.pieces? 0 (name ++ textAll arguments) = some (name :: arguments.map text) := by
  have after : Call.pieces? 0 (textAll arguments) = some ([] :: arguments.map text) := by
    induction arguments with
    | nil => simp [textAll, Call.pieces?]
    | cons phrase rest ih =>
        have first := phrase.pieces?_text ih
        simp [textAll, Call.pieces?, first]
  have whole := Call.pieces?_of_chars (isWord_of_isFunctionName named).chars after
  rwa [List.append_nil] at whole

theorem text_var_ne_call {spelling : List Char} {name : Variable} (spelled : name.Spelled spelling)
    {function : List Char} (named : isFunctionName function = true) (arguments : List Phrase) :
    (var spelling name spelled).text ≠ (call function named arguments).text := by
  intro same
  apply head?_text_var spelled
  exact congrArg List.head? same

theorem eq_of_map_text {left right : List Phrase}
    (each : ∀ phrase ∈ left, ∀ ⦃other : Phrase⦄, phrase.text = other.text → phrase = other)
    (same : left.map text = right.map text) : left = right := by
  induction left generalizing right with
  | nil => exact (List.map_eq_nil_iff.mp same.symm).symm
  | cons phrase rest ih =>
      rw [List.forall_mem_cons] at each
      obtain ⟨other, others, rfl, first, later⟩ := List.map_eq_cons_iff.mp same.symm
      rw [each.1 first.symm, ih each.2 later.symm]

/-- No text has two derivations. -/
theorem text_injective : Function.Injective text := by
  intro left
  induction left using Phrase.induction with
  | var spelling name spelled =>
      intro right same
      cases right with
      | var other otherName otherSpelled =>
          obtain rfl : spelling = other := same
          obtain rfl := spelled.unique otherSpelled
          rfl
      | call function named arguments => exact (text_var_ne_call spelled named arguments same).elim
  | call function named arguments ih =>
      intro right same
      cases right with
      | var spelling name spelled => exact (text_var_ne_call spelled named arguments same.symm).elim
      | call other otherNamed others =>
          have inside : function ++ textAll arguments = other ++ textAll others :=
            List.append_cancel_right (List.cons.inj same).2
          have pieces := pieces?_inside named arguments
          rw [inside, pieces?_inside otherNamed others] at pieces
          obtain ⟨rfl, texts⟩ := List.cons.inj (Option.some.inj pieces)
          rw [eq_of_map_text ih texts.symm]

end Phrase

/-! ## Reading -/

namespace Call

theorem any_isEmpty {parts : List (List Char)} : parts.any List.isEmpty = true ↔ [] ∈ parts := by
  simp only [List.any_eq_true, List.isEmpty_iff, exists_eq_right]

theorem readCompact_ok {text : List Char} {call : Call} : readCompact text = .ok call ↔
    ∃ inside name parts, inner? text = some inside ∧ pieces? 0 inside = some (name :: parts) ∧
      [] ∉ parts ∧ isFunctionName name = true ∧ call.function = String.ofList name ∧
      readArguments parts = .ok call.arguments := by
  constructor
  · intro ran
    rw [readCompact] at ran
    split at ran
    · cases ran
    · next inside enclosed =>
        split at ran
        · cases ran
        · cases ran
        · next name parts divided =>
            split at ran
            · cases ran
            · next nonempty =>
                split at ran
                · cases ran
                · next named =>
                    cases read : readArguments parts with
                    | error fault =>
                        rw [read] at ran
                        cases ran
                    | ok arguments =>
                        rw [read] at ran
                        cases ran
                        rw [any_isEmpty, List.mem_cons, not_or] at nonempty
                        exact ⟨inside, name, parts, enclosed, divided, nonempty.2, by simpa using named,
                          rfl, read⟩
  · rintro ⟨inside, name, parts, enclosed, divided, filled, named, function, read⟩
    have nonempty : ¬(name :: parts).any List.isEmpty = true := by
      rw [any_isEmpty, List.mem_cons, not_or]
      exact ⟨(isWord_of_isFunctionName named).nonempty.symm, filled⟩
    rw [readCompact]
    split
    · next missing =>
        rw [enclosed] at missing
        cases missing
    · next content found =>
        cases enclosed.symm.trans found
        split
        · next failed => simp [divided] at failed
        · next failed => simp [divided] at failed
        · next first others found =>
            cases divided.symm.trans found
            simp only [if_neg nonempty, named, Bool.not_true, Bool.false_eq_true, if_false, read, Except.map,
              ← function]

theorem readArguments_texts {phrases : List Phrase}
    (inner : ∀ phrase ∈ phrases, ∀ call : Call, phrase.argument = call.toArgument →
      readCompact phrase.text = .ok call) :
    readArguments (phrases.map Phrase.text) = .ok (phrases.map Phrase.argument) := by
  induction phrases with
  | nil => rw [List.map_nil, readArguments, List.map_nil]
  | cons phrase rest ih =>
      rw [List.forall_mem_cons] at inner
      have others := ih inner.2
      rw [List.map_cons, readArguments]
      cases phrase with
      | var spelling name spelled =>
          have start := Phrase.head?_text_var spelled
          have found := Variable.read?_eq_some.mpr spelled
          simp [Phrase.text, Phrase.argument, start, found, others, Except.map]
      | call name named arguments =>
          have start : (Phrase.call name named arguments).text.head? = some '(' := rfl
          have read := inner.1 ⟨String.ofList name, Phrase.argumentAll arguments⟩ rfl
          simp [start, read, others, Except.map, toArgument, Phrase.argument]

/-- A call is read from its text. -/
theorem readCompact_text {phrase : Phrase} {call : Call} (stands : phrase.argument = call.toArgument) :
    readCompact phrase.text = .ok call := by
  induction phrase using Phrase.induction generalizing call with
  | var spelling name spelled => cases stands
  | call name named arguments ih =>
      obtain ⟨function, parts⟩ := Argument.call.inj stands
      have filled : [] ∉ arguments.map Phrase.text := by
        intro member
        obtain ⟨phrase, _, empty⟩ := List.mem_map.mp member
        exact phrase.text_ne_nil empty
      have read := readArguments_texts fun phrase member call => ih phrase member
      rw [← Phrase.argumentAll_eq_map, parts] at read
      exact readCompact_ok.mpr ⟨_, name, _, inner?_parenthesised _, Phrase.pieces?_inside named arguments,
        filled, named, function.symm, read⟩

theorem readArguments_cons {part : List Char} {parts : List (List Char)} {arguments : List Argument}
    (ran : readArguments (part :: parts) = .ok arguments) :
    ∃ argument others, arguments = argument :: others ∧ readArguments parts = .ok others ∧
      ((∃ call, readCompact part = .ok call ∧ argument = call.toArgument) ∨
        ∃ name, Variable.read? part = some name ∧ argument = .var name) := by
  rw [readArguments] at ran
  split at ran
  · cases ran
  · next argument first =>
      cases read : readArguments parts with
      | error fault =>
          rw [read] at ran
          cases ran
      | ok others =>
          rw [read] at ran
          cases ran
          refine ⟨argument, others, rfl, rfl, ?_⟩
          split at first
          · left
            cases inner : readCompact part with
            | error fault =>
                rw [inner] at first
                cases first
            | ok call =>
                rw [inner] at first
                cases first
                exact ⟨call, rfl, rfl⟩
          · right
            split at first
            · next name found =>
                cases first
                exact ⟨name, found, rfl⟩
            · cases first

theorem phrases_of_readArguments {parts : List (List Char)} {arguments : List Argument}
    (inner : ∀ part ∈ parts, ∀ call : Call, readCompact part = .ok call →
      ∃ phrase : Phrase, phrase.text = part ∧ phrase.argument = call.toArgument)
    (ran : readArguments parts = .ok arguments) :
    ∃ phrases : List Phrase, phrases.map Phrase.text = parts ∧ phrases.map Phrase.argument = arguments := by
  induction parts generalizing arguments with
  | nil =>
      rw [readArguments] at ran
      cases ran
      exact ⟨[], rfl, rfl⟩
  | cons part parts ih =>
      rw [List.forall_mem_cons] at inner
      obtain ⟨argument, others, rfl, othersRan, origin⟩ := readArguments_cons ran
      obtain ⟨phrases, rfl, rfl⟩ := ih inner.2 othersRan
      rcases origin with ⟨call, read, rfl⟩ | ⟨name, found, rfl⟩
      · obtain ⟨phrase, rfl, stands⟩ := inner.1 call read
        exact ⟨phrase :: phrases, rfl, by rw [List.map_cons, stands]⟩
      · exact ⟨.var part name (Variable.read?_eq_some.mp found) :: phrases, rfl, rfl⟩

theorem length_lt_weight {part : List Char} {parts : List (List Char)} (member : part ∈ parts) :
    part.length < weight parts := by
  induction parts with
  | nil => cases member
  | cons first rest ih =>
      rw [weight]
      rcases List.mem_cons.mp member with rfl | member
      · omega
      · have later := ih member
        omega

/-- What is read is the text of a phrase. -/
theorem phrase_of_readCompact {text : List Char} {call : Call} (ran : readCompact text = .ok call) :
    ∃ phrase : Phrase, phrase.text = text ∧ phrase.argument = call.toArgument := by
  -- Together the parts of a call are shorter than its text, so every inner call is.
  induction size : text.length using Nat.strong_induction_on generalizing text call with
  | _ _ ih =>
      subst size
      obtain ⟨inside, name, parts, enclosed, divided, _, named, function, arguments⟩ := readCompact_ok.mp ran
      have outer := length_of_inner? enclosed
      have whole := weight_of_pieces? divided
      rw [weight] at whole
      have shorter : ∀ part ∈ parts, part.length < text.length := by
        intro part member
        have lighter := length_lt_weight member
        omega
      obtain ⟨phrases, rfl, stand⟩ := phrases_of_readArguments
        (fun part member call read => ih part.length (shorter part member) read rfl) arguments
      refine ⟨.call name named phrases, ?_, ?_⟩
      · have joined : inside = name ++ Phrase.textAll phrases := by
          rw [Phrase.textAll_eq_flatMap]
          exact (List.cons.inj (text_of_pieces? divided)).2
        rw [Phrase.text, ← joined, ← text_of_inner? enclosed]
      · rw [Phrase.argument, Phrase.argumentAll_eq_map, stand, ← function]
        rfl

/-- Reading accepts the texts that the grammar derives, and gives what they stand for. -/
theorem readCompact_iff {text : List Char} {call : Call} : readCompact text = .ok call ↔
    ∃ phrase : Phrase, phrase.text = text ∧ phrase.argument = call.toArgument := by
  constructor
  · exact phrase_of_readCompact
  · rintro ⟨phrase, rfl, stands⟩
    exact readCompact_text stands

end Call

end CounterMachine
