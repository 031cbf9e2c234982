import CounterMachine.Proofs.CallText
import Mathlib.Data.List.Forall2
set_option autoImplicit false

/-!
# Text of lines

A written line is a row of pieces with single spaces between them, and every piece is scanned as one token.
The tokens of an instruction or a directive are read as the statement that was written. Conversely, every
statement that is read from a line is legible.
-/

namespace CounterMachine.Assembly

/-! ## Pieces of a line -/

namespace Token

/-- Where a word ends: at the end of the text, at a blank or at a parenthesis. -/
def AtWordEnd (rest : List Char) : Prop :=
  ∀ c ∈ rest.head?, endsWord c = true

/-- A text is scanned as one token, whatever comes after its end. -/
def Scanned (token : Token) (text : List Char) : Prop :=
  ∀ rest, AtWordEnd rest → scan (text ++ rest) = (scan rest).map (token :: ·)

/-- A text with the characters of tokens only that is scanned as one token. -/
structure Spelled (token : Token) (text : List Char) : Prop where
  chars : ∀ c ∈ text, isTokenChar c = true
  scanned : Scanned token text

theorem scan_nil : scan [] = .ok [] := by
  rw [scan]
  rfl

theorem scan_blanks {gap : List Char} (blank : ∀ c ∈ gap, Text.isBlank c = true) (text : List Char) :
    scan (gap ++ text) = scan text := by
  have same : (gap ++ text).dropWhile Text.isBlank = text.dropWhile Text.isBlank :=
    List.dropWhile_append_of_pos blank
  rw [scan.eq_1 (gap ++ text), scan.eq_1 text]
  generalize (gap ++ text).dropWhile Text.isBlank = start at same ⊢
  subst same
  rfl

theorem scan_paren (rest : List Char) : scan ('(' :: rest) = match splitCall? 0 rest with
    | none => .error .unterminatedCall
    | some (inside, after) => (scan after).map (.call ('(' :: inside) :: ·) := by
  have start : ('(' :: rest).dropWhile Text.isBlank = '(' :: rest := rfl
  rw [scan]
  split
  · next empty =>
      rw [start] at empty
      cases empty
  · next found =>
      rw [start] at found
      cases found
      simp only [if_true]
      split
      · next failed => rw [failed]
      · next inside after parts => rw [parts]

theorem scan_word {c : Char} {rest : List Char} (going : endsWord c = false) :
    scan (c :: rest) = match ofWord (c :: rest.takeWhile fun d => !endsWord d) with
      | .error fault => .error fault
      | .ok token => (scan (rest.dropWhile fun d => !endsWord d)).map (token :: ·) := by
  simp only [endsWord, Bool.or_eq_false_iff, decide_eq_false_iff_not] at going
  have start : (c :: rest).dropWhile Text.isBlank = c :: rest := by simp [going.1]
  rw [scan]
  split
  · next empty =>
      rw [start] at empty
      cases empty
  · next found =>
      rw [start] at found
      cases found
      exact if_neg going.2

theorem atWordEnd_nil : AtWordEnd [] :=
  nofun

theorem atWordEnd_cons {c : Char} (ends : endsWord c = true) (rest : List Char) : AtWordEnd (c :: rest) := by
  simpa [AtWordEnd] using ends

theorem not_endsWord_of_isNameChar {c : Char} (inName : isNameChar c = true) : endsWord c = false := by
  simp [endsWord, not_isBlank_of_isNameChar inName, ne_of_isNameChar inName (rfl : isNameChar '(' = false)]

theorem AtWordEnd.stops {rest : List Char} (ends : AtWordEnd rest) :
    rest.takeWhile (fun d => !endsWord d) = [] ∧ rest.dropWhile (fun d => !endsWord d) = rest := by
  cases rest with
  | nil => exact ⟨rfl, rfl⟩
  | cons c more =>
      have stop : endsWord c = true := ends c rfl
      simp [stop]

theorem scanned_of_ofWord {text : List Char} {token : Token} (nonempty : text ≠ [])
    (chars : ∀ c ∈ text, endsWord c = false) (read : ofWord text = .ok token) : Scanned token text := by
  intro rest ends
  cases text with
  | nil => exact absurd rfl nonempty
  | cons c tail =>
      rw [List.forall_mem_cons] at chars
      obtain ⟨first, later⟩ := chars
      have word : (tail ++ rest).takeWhile (fun d => !endsWord d) = tail := by
        rw [List.takeWhile_append_of_pos (fun d member => by simp [later d member]), ends.stops.1,
          List.append_nil]
      have after : (tail ++ rest).dropWhile (fun d => !endsWord d) = rest := by
        rw [List.dropWhile_append_of_pos (fun d member => by simp [later d member]), ends.stops.2]
      rw [List.cons_append, scan_word first, word, after, read]

theorem getLast?_ne_colon {text : List Char} (word : IsWord text) : text.getLast? ≠ some ':' := by
  intro same
  cases word.chars ':' (List.mem_of_getLast? same)

theorem scanned_of_isWord {text : List Char} {token : Token} (word : IsWord text)
    (read : ofWord text = .ok token) : Scanned token text :=
  scanned_of_ofWord word.nonempty (fun c member => not_endsWord_of_isNameChar (word.chars c member)) read

theorem scanned_word {text : List Char} (named : isFunctionName text = true) : Scanned (.word text) text := by
  have word := isWord_of_isFunctionName named
  refine scanned_of_isWord word ?_
  simp [ofWord, getLast?_ne_colon word, head_of_isFunctionName named]

theorem scanned_number {text : List Char} {value : UInt64} (read : Text.Decimal.constant? text = some value) :
    Scanned (.number value) text := by
  obtain ⟨nonempty, digits⟩ := Text.Decimal.digits_of_constant? read
  have word : IsWord text := ⟨nonempty, fun c member => isNameChar_of_isDigit (digits c member)⟩
  have start : text.head?.any Char.isDigit = true := by
    obtain ⟨c, rest, rfl⟩ := List.exists_cons_of_ne_nil nonempty
    exact digits c List.mem_cons_self
  refine scanned_of_isWord word ?_
  simp [ofWord, getLast?_ne_colon word, start, read]

theorem scanned_label {text : List Char} (word : IsWord text) : Scanned (.label text) (text ++ [':']) := by
  refine scanned_of_ofWord (by simp) ?_ (by simp [ofWord])
  simp only [List.forall_mem_append, List.forall_mem_singleton]
  exact ⟨fun c member => not_endsWord_of_isNameChar (word.chars c member), rfl⟩

/-- A call ends with its own parenthesis, so any text may follow it. -/
theorem scan_call {inside : List Char} (balanced : Balanced inside) (rest : List Char) :
    scan ('(' :: inside ++ [')'] ++ rest) = (scan rest).map (.call ('(' :: inside ++ [')']) :: ·) := by
  -- The text inside is balanced, so the first parenthesis that closes the call is the last one.
  have closed : splitCall? 0 (inside ++ ')' :: rest) = some (inside ++ [')'], rest) := by
    simp [balanced.splitCall?, splitCall?]
  rw [List.append_assoc, List.cons_append, List.singleton_append, scan_paren, closed]
  rfl

theorem spelled_word {text : List Char} (named : isFunctionName text = true) : Spelled (.word text) text :=
  ⟨fun c member => isTokenChar_of_isNameChar ((isWord_of_isFunctionName named).chars c member),
    scanned_word named⟩

theorem scan_intercalate {tokens : List Token} {pieces : List (List Char)}
    (each : List.Forall₂ Spelled tokens pieces) : scan ([' '].intercalate pieces) = .ok tokens := by
  induction each with
  | nil => exact scan_nil
  | @cons token piece tokens pieces spelled others ih =>
      cases pieces with
      | nil =>
          cases others
          have last := spelled.scanned [] atWordEnd_nil
          rw [List.append_nil, scan_nil] at last
          rw [List.intercalate_singleton]
          exact last
      | cons next more =>
          rw [List.intercalate_cons_cons, List.append_assoc, List.singleton_append]
          have space : ∀ c ∈ [' '], Text.isBlank c = true := List.forall_mem_singleton.mpr rfl
          rw [spelled.scanned _ (atWordEnd_cons rfl _), ← List.singleton_append, scan_blanks space, ih]
          rfl

theorem chars_intercalate {tokens : List Token} {pieces : List (List Char)}
    (each : List.Forall₂ Spelled tokens pieces) :
    ∀ c ∈ [' '].intercalate pieces, isTokenChar c = true ∨ c = ' ' := by
  induction each with
  | nil => simp
  | @cons token piece tokens pieces spelled others ih =>
      have own : ∀ c ∈ piece, isTokenChar c = true ∨ c = ' ' := fun c member => .inl (spelled.chars c member)
      cases pieces with
      | nil => rwa [List.intercalate_singleton]
      | cons next more =>
          rw [List.intercalate_cons_cons]
          simp only [List.forall_mem_append, List.forall_mem_singleton]
          exact ⟨⟨own, .inr trivial⟩, ih⟩

end Token

end CounterMachine.Assembly

namespace CounterMachine

/-! ## Legible statements -/

/-- The variables of an operation can be read back, the called functions have proper names, and a jump has a
target. An unconditional jump has no variable. -/
structure Operation.Legible (operation : Operation) : Prop where
  vars : ∀ name ∈ operation.vars, name.Legible
  calls : ∀ call, operation.call? = some call →
    ∀ inner ∈ call.calls, isFunctionName inner.function.toList = true
  target : operation.target? ≠ some .empty

instance : DecidablePred Operation.Legible := fun operation =>
  decidable_of_iff ((∀ name ∈ operation.vars, name.Legible) ∧
      (∀ call ∈ operation.call?, ∀ inner ∈ call.calls, isFunctionName inner.function.toList = true) ∧
      operation.target? ≠ some .empty)
    ⟨fun ⟨vars, calls, target⟩ => ⟨vars, calls, target⟩, fun ⟨vars, calls, target⟩ => ⟨vars, calls, target⟩⟩

theorem Operation.Legible.call {operation : Operation} (legible : operation.Legible) {call : Call}
    (calls : operation.call? = some call) : call.toArgument.Legible := by
  refine ⟨fun name member => legible.vars name (vars_of_call calls ?_), legible.calls call calls⟩
  rwa [Call.toArgument, Argument.vars] at member

theorem Operation.Legible.ofCall {operation : Operation} {subject : Variable} {call : Call}
    (subjectLegible : subject.Legible) (callLegible : call.toArgument.Legible)
    (calls : operation.call? = some call) (vars : operation.vars = subject :: call.vars)
    (target : operation.target? ≠ some .empty) : operation.Legible where
  vars := by
    rw [vars, List.forall_mem_cons]
    refine ⟨subjectLegible, ?_⟩
    have inCall := callLegible.vars
    rwa [Call.toArgument, Argument.vars] at inCall
  calls := by
    rw [calls]
    rintro _ ⟨⟩
    exact callLegible.calls
  target := target

namespace Assembly

/-! ## Reading operands -/

namespace Operands

variable {α β : Type}

@[simp] theorem pure_apply (value : α) (tokens : List Token) :
    (pure value : Operands α) tokens = .ok (value, tokens) :=
  rfl

@[simp] theorem bind_apply (first : Operands α) (second : α → Operands β) (tokens : List Token) :
    (first >>= second) tokens = match first tokens with
      | .error fault => .error fault
      | .ok (value, rest) => second value rest := by
  change (first tokens >>= fun outcome => second outcome.1 outcome.2) = _
  cases first tokens <;> rfl

@[simp] theorem map_apply (function : α → β) (reader : Operands α) (tokens : List Token) :
    (function <$> reader) tokens = match reader tokens with
      | .error fault => .error fault
      | .ok (value, rest) => .ok (function value, rest) := by
  rw [map_eq_pure_bind, bind_apply]
  rfl

end Operands

/-! ## Pieces of an instruction -/

/-- A piece of a written instruction: the label in front, the mnemonic or an operand. -/
inductive Piece where
  | label (label : Label)
  | mnemonic (kind : Kind)
  | var (name : Variable)
  | constant (value : UInt64)
  | target (label : Label)
  | call (call : Call)

namespace Piece

def render : Piece → String
  | .label attached => attached.render ++ ":"
  | .mnemonic kind => kind.mnemonic
  | .var name => name.render
  | .constant value => value.toNat.repr
  | .target place => place.render
  | .call invoked => invoked.render

/-- A piece that can be read back. -/
def Legible : Piece → Prop
  | .label place | .target place => place ≠ .empty
  | .mnemonic _ | .constant _ => True
  | .var name => name.Legible
  | .call invoked => invoked.toArgument.Legible

/-- A piece is read from a token. A mnemonic may be written in any case of its letters. -/
inductive Reads : Piece → Token → Prop where
  | label {text : List Char} {label : Label} (read : Label.read? text = some label) :
      Reads (.label label) (.label text)
  | mnemonic {text : List Char} {kind : Kind} (recased : text.map Char.toUpper = kind.mnemonic.toList) :
      Reads (.mnemonic kind) (.word text)
  | var {text : List Char} {name : Variable} (read : Variable.read? text = some name) :
      Reads (.var name) (.word text)
  | constant (value : UInt64) : Reads (.constant value) (.number value)
  | target {text : List Char} {label : Label} (read : Label.read? text = some label) :
      Reads (.target label) (.word text)
  | call {text : List Char} {call : Call} (read : Call.read text = .ok call) :
      Reads (.call call) (.call text)

end Piece

end Assembly

/-- The operands of an operation. -/
def Operation.pieces : Operation → List Assembly.Piece
  | .increase subject | .decrease subject | .neutral subject | .zeroVariable subject => [.var subject]
  | .jumpNotZero subject target | .jumpZero subject target => [.var subject, .target target]
  | .gotoLabel target => [.target target]
  | .constantAssignment subject constant => [.var subject, .constant constant]
  | .assignment subject source => [.var subject, .var source]
  | .jumpEqualConstant subject constant target => [.var subject, .constant constant, .target target]
  | .jumpEqualVariable subject other target => [.var subject, .var other, .target target]
  | .quote subject call => [.var subject, .call call]
  | .jumpEqualFunction subject call target => [.var subject, .call call, .target target]

theorem Operation.operands_eq (operation : Operation) :
    operation.operands = operation.pieces.map Assembly.Piece.render := by
  cases operation <;> rfl

/-- The pieces of an instruction in the order of the text. -/
def Instruction.pieces (instruction : Instruction) : List Assembly.Piece :=
  (if instruction.label.isEmpty then [] else [.label instruction.label]) ++
    .mnemonic instruction.kind :: instruction.operation.pieces

theorem Instruction.listing_eq (instruction : Instruction) :
    instruction.listing = " ".intercalate (instruction.pieces.map Assembly.Piece.render) := by
  rw [listing, pieces, Operation.operands_eq]
  cases instruction.label.isEmpty with
  | true => simp [Assembly.Piece.render]
  | false => simp [Assembly.Piece.render, ← String.toList_inj]

theorem Operation.Legible.pieces {operation : Operation} (legible : operation.Legible) :
    ∀ piece ∈ operation.pieces, piece.Legible := by
  have vars := legible.vars
  have target {label : Label} (jumps : operation.target? = some label) : label ≠ .empty := by
    rintro rfl
    exact legible.target jumps
  have call {call : Call} (calls : operation.call? = some call) : call.toArgument.Legible :=
    legible.call calls
  cases operation with
  | increase | decrease | neutral | zeroVariable | jumpNotZero | jumpZero | gotoLabel | constantAssignment
  | assignment | jumpEqualConstant | jumpEqualVariable | quote | jumpEqualFunction =>
      simp_all [Operation.pieces, Operation.vars, Operation.target?, Operation.call?, Assembly.Piece.Legible]

theorem Instruction.legible_pieces {instruction : Instruction} (legible : instruction.operation.Legible) :
    ∀ piece ∈ instruction.pieces, piece.Legible := by
  rw [pieces, List.forall_mem_append, List.forall_mem_cons]
  refine ⟨?_, trivial, legible.pieces⟩
  cases label : instruction.label <;> simp [Label.isEmpty, Assembly.Piece.Legible]

namespace Assembly

namespace Piece.Reads

variable {missing : Fault} {token : Token} {rest : List Token}

theorem takeVariable {name : Variable} (reads : (Piece.var name).Reads token) :
    Operands.takeVariable missing (token :: rest) = .ok (name, rest) := by
  cases reads with
  | var read => simp [Operands.takeVariable, Operands.next, read]

theorem takeTarget {label : Label} (reads : (Piece.target label).Reads token) :
    Operands.takeTarget missing (token :: rest) = .ok (label, rest) := by
  cases reads with
  | target read => simp [Operands.takeTarget, Operands.next, read]

theorem takeConstant {value : UInt64} (reads : (Piece.constant value).Reads token) :
    Operands.takeConstant missing (token :: rest) = .ok (value, rest) := by
  cases reads with
  | constant => simp [Operands.takeConstant, Operands.next]

theorem takeCall {call : Call} (reads : (Piece.call call).Reads token) :
    Operands.takeCall missing (token :: rest) = .ok (call, rest) := by
  cases reads with
  | call read => simp [Operands.takeCall, Operands.next, read]

end Piece.Reads

/-- The operation is read from the tokens of its operands. -/
theorem operation_of_reads {written : Operation} {tokens : List Token}
    (each : List.Forall₂ Piece.Reads written.pieces tokens) :
    operation written.kind tokens = .ok (written, []) := by
  cases written with
  | increase | decrease | neutral | zeroVariable =>
      obtain _ | ⟨subject, _ | _⟩ := each
      simp [operation, Operation.kind, subject.takeVariable]
  | jumpNotZero | jumpZero =>
      obtain _ | ⟨subject, _ | ⟨target, _ | _⟩⟩ := each
      simp [operation, Operation.kind, subject.takeVariable, target.takeTarget]
  | gotoLabel =>
      obtain _ | ⟨target, _ | _⟩ := each
      simp [operation, Operation.kind, target.takeTarget]
  | constantAssignment =>
      obtain _ | ⟨subject, _ | ⟨constant, _ | _⟩⟩ := each
      simp [operation, Operation.kind, subject.takeVariable, constant.takeConstant]
  | assignment =>
      obtain _ | ⟨subject, _ | ⟨source, _ | _⟩⟩ := each
      simp [operation, Operation.kind, subject.takeVariable, source.takeVariable]
  | jumpEqualConstant =>
      obtain _ | ⟨subject, _ | ⟨constant, _ | ⟨target, _ | _⟩⟩⟩ := each
      simp [operation, Operation.kind, subject.takeVariable, constant.takeConstant, target.takeTarget]
  | jumpEqualVariable =>
      obtain _ | ⟨subject, _ | ⟨other, _ | ⟨target, _ | _⟩⟩⟩ := each
      simp [operation, Operation.kind, subject.takeVariable, other.takeVariable, target.takeTarget]
  | quote =>
      obtain _ | ⟨subject, _ | ⟨call, _ | _⟩⟩ := each
      simp [operation, Operation.kind, subject.takeVariable, call.takeCall]
  | jumpEqualFunction =>
      obtain _ | ⟨subject, _ | ⟨call, _ | ⟨target, _ | _⟩⟩⟩ := each
      simp [operation, Operation.kind, subject.takeVariable, call.takeCall, target.takeTarget]

/-! ## Reading statements -/

theorem Operands.seqLeft_finished {α : Type} {reader : Operands α} {value : α} {tokens : List Token}
    (ran : reader tokens = .ok (value, [])) : (reader <* finished).run tokens = .ok (value, []) := by
  change (reader >>= fun value => finished >>= fun _ => pure value) tokens = _
  rw [bind_apply, ran]
  rfl

theorem Operands.takeName_word {text : List Char} (named : isFunctionName text = true) :
    takeName [.word text] = .ok (String.ofList text, []) := by
  change (if isFunctionName text then return String.ofList text
    else throw (.invalidName (String.ofList text)) : Operands String) [] = _
  rw [if_pos named]
  rfl

theorem statement_instruction {label : Option Label} {written : Operation} {text : List Char}
    {tokens : List Token} (recased : text.map Char.toUpper = written.kind.mnemonic.toList)
    (read : operation written.kind tokens = .ok (written, [])) :
    statement label (.word text) tokens =
      .ok (.instruction { label := label.getD .empty, operation := written }) := by
  have none : directive? text = none := Kind.directive?_recased recased
  simp only [statement, none, Kind.ofMnemonic?_recased recased, Operands.seqLeft_finished read]
  rfl

/-- The instruction is read from the tokens of its pieces. -/
theorem statement?_of_reads {instruction : Instruction} {tokens : List Token}
    (each : List.Forall₂ Piece.Reads instruction.pieces tokens) :
    statement? tokens = .ok (some (.instruction instruction)) := by
  obtain ⟨label, written⟩ := instruction
  rw [Instruction.pieces] at each
  cases empty : label.isEmpty with
  | true =>
      obtain rfl : label = .empty := by
        cases label <;> simp_all [Label.isEmpty]
      simp only [empty, if_true, List.nil_append] at each
      cases each with
      | cons mnemonic operands =>
          cases mnemonic with
          | mnemonic recased =>
              change (statement none (.word _) _).map some = _
              rw [statement_instruction recased (operation_of_reads operands)]
              rfl
  | false =>
      simp only [empty, Bool.false_eq_true, if_false, List.singleton_append] at each
      obtain _ | ⟨attached, _ | ⟨mnemonic, operands⟩⟩ := each
      cases attached with
      | label read =>
          cases mnemonic with
          | mnemonic recased =>
              simp only [statement?, read]
              rw [statement_instruction recased (operation_of_reads operands)]
              rfl

theorem statement_directive {word : List Char} {reader : Operands Statement} {result : Statement}
    {tokens : List Token} (found : directive? word = some reader) (read : reader tokens = .ok (result, [])) :
    statement none (.word word) tokens = .ok result := by
  simp only [statement, found, Operands.seqLeft_finished read]
  rfl

/-- A line with the characters of tokens and spaces only, from which a statement is read. -/
structure Spells (statement : Statement) (line : String) : Prop where
  chars : ∀ c ∈ line.toList, isTokenChar c = true ∨ c = ' '
  read : Statement.ofLine? line.toList = .ok (some statement)

theorem spells_pieces {statement : Statement} {tokens : List Token} (pieces : List String)
    (each : List.Forall₂ Token.Spelled tokens (pieces.map String.toList))
    (read : statement? tokens = .ok (some statement)) : Spells statement (" ".intercalate pieces) := by
  have line : (" ".intercalate pieces).toList = [' '].intercalate (pieces.map String.toList) := by simp
  have chars := Token.chars_intercalate each
  rw [← line] at chars
  refine ⟨chars, ?_⟩
  have uncommented : (" ".intercalate pieces).toList.takeWhile (· ≠ ';') =
      (" ".intercalate pieces).toList := by
    refine List.takeWhile_eq_self_iff.mpr fun c member => ?_
    rcases chars c member with inToken | rfl
    · simpa using ne_semicolon_of_isTokenChar inToken
    · rfl
  rw [Statement.ofLine?, Token.ofLine, uncommented, line, Token.scan_intercalate each]
  exact read

theorem Piece.Legible.spelled {piece : Piece} (legible : piece.Legible) :
    ∃ token, piece.Reads token ∧ Token.Spelled token piece.render.toList := by
  cases piece with
  | label label =>
      have named := Label.isFunctionName_render legible
      have word := isWord_of_isFunctionName named
      refine ⟨_, .label (Label.read?_render legible), ?_, ?_⟩
      · simp only [render, String.toList_append, List.forall_mem_append]
        exact ⟨(Token.spelled_word named).chars, List.forall_mem_singleton.mpr rfl⟩
      · rw [render, String.toList_append]
        exact Token.scanned_label word
  | mnemonic kind =>
      exact ⟨_, .mnemonic (Kind.toUpper_mnemonic kind), Token.spelled_word (Kind.isFunctionName_mnemonic kind)⟩
  | var name => exact ⟨_, .var (Variable.read?_render legible), Token.spelled_word name.isFunctionName_render⟩
  | constant value =>
      have read : Text.Decimal.constant? value.toNat.repr.toList = some value := by
        rw [Nat.toList_repr, Text.Decimal.constant?_toDigits]
      refine ⟨_, .constant value, fun c member => ?_, Token.scanned_number read⟩
      exact isTokenChar_of_isNameChar (isNameChar_of_isDigit ((Text.Decimal.digits_of_constant? read).2 c member))
  | target label =>
      exact ⟨_, .target (Label.read?_render legible), Token.spelled_word (Label.isFunctionName_render legible)⟩
  | call call =>
      have written : call.render.toList = '(' :: Argument.inside call.function call.arguments ++ [')'] :=
        Argument.text_call call.function call.arguments
      refine ⟨_, .call (Call.read_render legible), legible.chars, fun rest _ => ?_⟩
      rw [render, written]
      exact Token.scan_call legible.inside_balanced rest

theorem spells_listing {instruction : Instruction} (legible : instruction.operation.Legible) :
    Spells (.instruction instruction) instruction.listing := by
  have each {pieces : List Piece} (legible : ∀ piece ∈ pieces, piece.Legible) :
      ∃ tokens, List.Forall₂ Piece.Reads pieces tokens ∧
        List.Forall₂ Token.Spelled tokens ((pieces.map Piece.render).map String.toList) := by
    induction pieces with
    | nil => exact ⟨[], .nil, .nil⟩
    | cons piece rest ih =>
        rw [List.forall_mem_cons] at legible
        obtain ⟨token, read, spelled⟩ := legible.1.spelled
        obtain ⟨tokens, others, spelledAll⟩ := ih legible.2
        exact ⟨token :: tokens, .cons read others, .cons spelled spelledAll⟩
  obtain ⟨tokens, read, spelled⟩ := each (Instruction.legible_pieces legible)
  rw [instruction.listing_eq]
  exact spells_pieces _ spelled (statement?_of_reads read)

theorem spells_named {directive name : String} {make : String → Statement}
    (upper : isFunctionName directive.toList = true)
    (found : directive? directive.toList = some (make <$> Operands.takeName))
    (named : isFunctionName name.toList = true) : Spells (make name) (directive ++ " " ++ name) := by
  have line : directive ++ " " ++ name = " ".intercalate [directive, name] := by simp
  have read : (make <$> Operands.takeName) [.word name.toList] = .ok (make name, []) := by
    rw [Operands.map_apply, Operands.takeName_word named, String.ofList_toList]
  rw [line]
  refine spells_pieces _ (.cons (Token.spelled_word upper) (.cons (Token.spelled_word named) .nil)) ?_
  change (statement none (.word directive.toList) [.word name.toList]).map some = _
  rw [statement_directive found read]
  rfl

theorem spells_program {name : String} (named : isFunctionName name.toList = true) :
    Spells (.program name) ("PROGRAM " ++ name) := by
  have spelled : Spells (.program name) ("PROGRAM" ++ " " ++ name) := spells_named (by decide) rfl named
  exact spelled

theorem spells_function {name : String} (named : isFunctionName name.toList = true) :
    Spells (.function name) ("FUNCTION " ++ name) := by
  have spelled : Spells (.function name) ("FUNCTION" ++ " " ++ name) := spells_named (by decide) rfl named
  exact spelled

theorem spells_end : Spells .finish "END" := by
  have word : Token.Spelled (.word "END".toList) "END".toList := Token.spelled_word (by decide)
  refine spells_pieces ["END"] (.cons word .nil) ?_
  change (statement none (.word "END".toList) []).map some = _
  rw [statement_directive rfl rfl]
  rfl

/-! ## What is read is legible -/

/-- The names of a directive and the operation of an instruction can be read back. -/
def Statement.Legible : Statement → Prop
  | program name | function name => isFunctionName name.toList = true
  | finish => True
  | .instruction written => written.operation.Legible

namespace Operands

variable {missing : Fault} {tokens rest : List Token} {α β : Type}

theorem bind_ok {first : Operands α} {second : α → Operands β} {result : β}
    (ran : (first >>= second) tokens = .ok (result, rest)) :
    ∃ value middle, first tokens = .ok (value, middle) ∧ second value middle = .ok (result, rest) := by
  rw [bind_apply] at ran
  split at ran
  · cases ran
  · next value middle read => exact ⟨value, middle, read, ran⟩

theorem seqLeft_ok {reader : Operands α} {value : α} {outcome : List Token}
    (ran : (reader <* finished).run tokens = .ok (value, outcome)) :
    ∃ middle, reader tokens = .ok (value, middle) := by
  have sequenced : (reader >>= fun value => finished >>= fun _ => pure value) tokens =
      .ok (value, outcome) := ran
  obtain ⟨result, middle, taken, rest⟩ := bind_ok sequenced
  obtain ⟨_, _, _, returned⟩ := bind_ok rest
  cases returned
  exact ⟨middle, taken⟩

theorem takeVariable_ok {name : Variable} (ran : takeVariable missing tokens = .ok (name, rest)) :
    name.Legible := by
  obtain ⟨token, middle, _, ran⟩ := bind_ok ran
  cases token with
  | word text =>
      cases found : Variable.read? text with
      | none =>
          simp only [found] at ran
          cases ran
      | some value =>
          simp only [found] at ran
          cases ran
          exact Variable.legible_of_read? found
  | label | number | call => cases ran

theorem takeTarget_ok {label : Label} (ran : takeTarget missing tokens = .ok (label, rest)) :
    label ≠ .empty := by
  obtain ⟨token, middle, _, ran⟩ := bind_ok ran
  cases token with
  | word text =>
      cases found : Label.read? text with
      | none =>
          simp only [found] at ran
          cases ran
      | some value =>
          simp only [found] at ran
          cases ran
          exact Label.ne_empty_of_read? found
  | label | number | call => cases ran

theorem takeCall_ok {call : Call} (ran : takeCall missing tokens = .ok (call, rest)) :
    call.toArgument.Legible := by
  obtain ⟨token, middle, _, ran⟩ := bind_ok ran
  cases token with
  | call text =>
      cases read : Call.read text with
      | error reason =>
          simp only [read] at ran
          cases ran
      | ok call =>
          simp only [read] at ran
          cases ran
          exact Call.legible_of_readCompact read
  | label | number | word => cases ran

theorem takeName_ok {name : String} (ran : takeName tokens = .ok (name, rest)) :
    isFunctionName name.toList = true := by
  obtain ⟨token, middle, _, ran⟩ := bind_ok ran
  cases token with
  | word text =>
      obtain ⟨remaining, after, _, ran⟩ := bind_ok ran
      cases remaining with
      | cons extra others => cases ran
      | nil =>
          dsimp only at ran
          split at ran
          · next named =>
              cases ran
              rwa [String.toList_ofList]
          · cases ran
  | label | number | call => cases ran

end Operands

theorem operation_legible {kind : Kind} {tokens rest : List Token} {read : Operation}
    (ran : operation kind tokens = .ok (read, rest)) : read.Legible := by
  cases kind with
  | increase | decrease | neutral | zeroVariable =>
      obtain ⟨subject, _, first, ran⟩ := Operands.bind_ok ran
      cases ran
      have subjectLegible := Operands.takeVariable_ok first
      exact ⟨by simpa [Operation.vars], by simp [Operation.call?], by simp [Operation.target?]⟩
  | gotoLabel =>
      obtain ⟨target, _, first, ran⟩ := Operands.bind_ok ran
      cases ran
      have nonempty := Operands.takeTarget_ok first
      exact ⟨by simp [Operation.vars], by simp [Operation.call?], by simpa [Operation.target?]⟩
  | jumpNotZero | jumpZero =>
      obtain ⟨subject, _, first, ran⟩ := Operands.bind_ok ran
      obtain ⟨target, _, second, ran⟩ := Operands.bind_ok ran
      cases ran
      have subjectLegible := Operands.takeVariable_ok first
      have nonempty := Operands.takeTarget_ok second
      exact ⟨by simpa [Operation.vars], by simp [Operation.call?], by simpa [Operation.target?]⟩
  | constantAssignment =>
      obtain ⟨subject, _, first, ran⟩ := Operands.bind_ok ran
      obtain ⟨value, _, _, ran⟩ := Operands.bind_ok ran
      cases ran
      have subjectLegible := Operands.takeVariable_ok first
      exact ⟨by simpa [Operation.vars], by simp [Operation.call?], by simp [Operation.target?]⟩
  | assignment =>
      obtain ⟨subject, _, first, ran⟩ := Operands.bind_ok ran
      obtain ⟨source, _, second, ran⟩ := Operands.bind_ok ran
      cases ran
      have subjectLegible := Operands.takeVariable_ok first
      have sourceLegible := Operands.takeVariable_ok second
      exact ⟨by simp [Operation.vars, subjectLegible, sourceLegible], by simp [Operation.call?],
        by simp [Operation.target?]⟩
  | jumpEqualConstant =>
      obtain ⟨subject, _, first, ran⟩ := Operands.bind_ok ran
      obtain ⟨value, _, _, ran⟩ := Operands.bind_ok ran
      obtain ⟨target, _, third, ran⟩ := Operands.bind_ok ran
      cases ran
      have subjectLegible := Operands.takeVariable_ok first
      have nonempty := Operands.takeTarget_ok third
      exact ⟨by simpa [Operation.vars], by simp [Operation.call?], by simpa [Operation.target?]⟩
  | jumpEqualVariable =>
      obtain ⟨subject, _, first, ran⟩ := Operands.bind_ok ran
      obtain ⟨other, _, second, ran⟩ := Operands.bind_ok ran
      obtain ⟨target, _, third, ran⟩ := Operands.bind_ok ran
      cases ran
      have subjectLegible := Operands.takeVariable_ok first
      have otherLegible := Operands.takeVariable_ok second
      have nonempty := Operands.takeTarget_ok third
      exact ⟨by simp [Operation.vars, subjectLegible, otherLegible], by simp [Operation.call?],
        by simpa [Operation.target?]⟩
  | quote =>
      obtain ⟨subject, _, first, ran⟩ := Operands.bind_ok ran
      obtain ⟨call, _, second, ran⟩ := Operands.bind_ok ran
      cases ran
      exact .ofCall (Operands.takeVariable_ok first) (Operands.takeCall_ok second) rfl
        (by simp [Operation.vars]) (by simp [Operation.target?])
  | jumpEqualFunction =>
      obtain ⟨subject, _, first, ran⟩ := Operands.bind_ok ran
      obtain ⟨call, _, second, ran⟩ := Operands.bind_ok ran
      obtain ⟨target, _, third, ran⟩ := Operands.bind_ok ran
      cases ran
      have nonempty := Operands.takeTarget_ok third
      exact .ofCall (Operands.takeVariable_ok first) (Operands.takeCall_ok second) rfl
        (by simp [Operation.vars]) (by simpa [Operation.target?])

theorem directive_legible {word : List Char} {reader : Operands Statement} {tokens rest : List Token}
    {read : Statement} (found : directive? word = some reader) (ran : reader tokens = .ok (read, rest)) :
    read.Legible := by
  have named {make : String → Statement} (ran : (make <$> Operands.takeName) tokens = .ok (read, rest)) :
      ∃ name, read = make name ∧ isFunctionName name.toList = true := by
    rw [Operands.map_apply] at ran
    split at ran
    · cases ran
    · next name _ taken =>
        cases ran
        exact ⟨name, rfl, Operands.takeName_ok taken⟩
  unfold directive? at found
  dsimp only at found
  split at found
  · cases found
    obtain ⟨name, rfl, proper⟩ := named ran
    exact proper
  · split at found
    · cases found
      obtain ⟨name, rfl, proper⟩ := named ran
      exact proper
    · split at found
      · cases found
        cases ran
        trivial
      · cases found

theorem statement_legible {label : Option Label} {first : Token} {rest : List Token} {read : Statement}
    (ran : statement label first rest = .ok read) : read.Legible := by
  cases first with
  | label | number | call => cases ran
  | word word =>
      cases found : directive? word with
      | some reader =>
          simp only [statement, found] at ran
          cases outcome : (reader <* Operands.finished).run rest with
          | error fault =>
              rw [outcome] at ran
              cases ran
          | ok pair =>
              rw [outcome] at ran
              obtain ⟨_, taken⟩ := Operands.seqLeft_ok outcome
              have legible := directive_legible found taken
              cases label with
              | none =>
                  cases ran
                  exact legible
              | some label => cases ran
      | none =>
          cases known : Kind.ofMnemonic? word with
          | none =>
              simp only [statement, found, known] at ran
              cases ran
          | some kind =>
              simp only [statement, found, known] at ran
              cases outcome : (operation kind <* Operands.finished).run rest with
              | error fault =>
                  rw [outcome] at ran
                  cases ran
              | ok pair =>
                  rw [outcome] at ran
                  obtain ⟨_, taken⟩ := Operands.seqLeft_ok outcome
                  cases ran
                  exact operation_legible taken

theorem legible_of_ofLine? {line : List Char} {read : Statement}
    (ran : Statement.ofLine? line = .ok (some read)) : read.Legible := by
  have within {label : Option Label} {first : Token} {rest : List Token}
      (ran : (statement label first rest).map some = .ok (some read)) : read.Legible := by
    cases outcome : statement label first rest with
    | error fault =>
        rw [outcome] at ran
        cases ran
    | ok result =>
        rw [outcome] at ran
        cases ran
        exact statement_legible outcome
  rw [Statement.ofLine?] at ran
  cases scanned : Token.ofLine line with
  | error fault =>
      rw [scanned] at ran
      cases ran
  | ok tokens =>
      rw [scanned] at ran
      change statement? tokens = .ok (some read) at ran
      unfold statement? at ran
      split at ran
      · cases ran
      · split at ran
        · cases ran
        · cases ran
        · exact within ran
      · exact within ran

end Assembly

end CounterMachine
