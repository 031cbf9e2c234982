import CounterMachine.Assembly.Slicing
import CounterMachine.Proofs.LineText
set_option autoImplicit false

/-!
# Slices are proper

Reading by offsets and indices never crashes. An offset that is used for a cut is the length of a part that was
passed before, so it falls between two characters; a parenthesis is closed after it was opened; what is left
after a token, and a call inside a call, is shorter; and an operand is looked for behind operands that are
there. Reading by offsets therefore yields what reading from front to back yields.
-/

namespace CounterMachine

/-! ## Computations that do not crash -/

namespace Guarded

variable {ε ζ α β : Type}

@[simp] theorem pure_eq (value : α) : (pure value : Guarded ε α) = of (.ok value) :=
  rfl

@[simp] theorem throw_eq (fault : ε) : (throw fault : Guarded ε α) = of (.error fault) :=
  rfl

@[simp] theorem of_ok_bind (value : α) (next : α → Guarded ε β) : (of (.ok value) >>= next) = next value :=
  rfl

@[simp] theorem of_error_bind (fault : ε) (next : α → Guarded ε β) :
    (of (.error fault) >>= next) = of (.error fault) :=
  rfl

@[simp] theorem lift_ok (value : α) :
    (liftM (Except.ok value : Except Crash α) : Guarded ε α) = of (.ok value) :=
  rfl

@[simp] theorem map_of (f : α → β) (result : Except ε α) : f <$> of result = of (result.map f) := by
  cases result <;> rfl

@[simp] theorem adapt_of (f : ε → ζ) (result : Except ε α) :
    (of result : Guarded ε α).adapt f = of (result.mapError f) := by
  cases result <;> rfl

end Guarded

/-! ## Cuts -/

namespace Text

theorem byteLength_append (first second : List Char) :
    byteLength (first ++ second) = byteLength first + byteLength second := by
  induction first with
  | nil => rw [List.nil_append, byteLength, Nat.zero_add]
  | cons c rest ih => rw [List.cons_append, byteLength, byteLength, ih, Nat.add_assoc]

/-- A text can be cut between two of its parts. -/
theorem cut_append (first second : List Char) :
    cut (byteLength first) (first ++ second) = .ok (first, second) := by
  have parts : cut? (byteLength first) (first ++ second) = some (first, second) := by
    induction first with
    | nil => simp [byteLength, cut?]
    | cons c rest ih =>
        have positive := c.utf8Size_pos
        obtain ⟨size, same⟩ : ∃ size, c.utf8Size = size + 1 := ⟨c.utf8Size - 1, by omega⟩
        simp [byteLength, same, Nat.succ_add, cut?, ih]
  rw [cut, parts]

@[simp] theorem upTo_append (first second : List Char) :
    upTo (byteLength first) (first ++ second) = .ok first := by
  rw [upTo, cut_append]
  rfl

@[simp] theorem onward_append (first second : List Char) :
    onward (byteLength first) (first ++ second) = .ok second := by
  rw [onward, cut_append]
  rfl

example : upTo 1 ['é', 'a'] = .error .offset := by decide

theorem between_append (first second third : List Char) :
    between (byteLength first) (byteLength (first ++ second)) (first ++ second ++ third) = .ok second := by
  rw [between, upTo_append]
  exact onward_append first second

/-- A character is found after the longest part without it. -/
theorem find?_eq (property : Char → Bool) (text : List Char) :
    find? property text = none ∧ text.takeWhile (fun c => !property c) = text ∨
      find? property text = some (byteLength (text.takeWhile fun c => !property c)) := by
  induction text with
  | nil => exact .inl ⟨rfl, rfl⟩
  | cons c rest ih =>
      cases holds : property c with
      | true => exact .inr (by simp [find?, holds, byteLength])
      | false =>
          rcases ih with ⟨none, whole⟩ | found
          · exact .inl ⟨by simp [find?, holds, none], by simp [holds, whole]⟩
          · exact .inr (by simp [find?, holds, found, byteLength])

end Text

/-! ## Calls -/

namespace Call

/-- A text is cut into the earlier parts, the current part with what completes it, and the other pieces. -/
def CutsInto (result : Guarded CallFault (Array (List Char) × List Char)) (earlier : List (List Char))
    (current : List Char) : Option (List (List Char)) → Prop
  | some (piece :: others) => ∃ cut last, result = Guarded.of (.ok (cut, last)) ∧
      cut.toList ++ [last] = earlier ++ (current ++ piece) :: others
  | _ => result = Guarded.of (.error .unbalanced)

/-- A character in front of the first piece. -/
def attach (c : Char) : List (List Char) → Option (List (List Char))
  | [] => none
  | piece :: others => some ((c :: piece) :: others)

theorem pieces?_attach {c : Char} {rest : List Char} {depth : Nat} (next : Nat)
    (inside : ¬(c = ',' ∧ depth = 0))
    (counted : (if c = '(' then some (depth + 1)
      else if c = ')' then if depth = 0 then none else some (depth - 1) else some depth) = some next) :
    pieces? depth (c :: rest) = (pieces? next rest).bind (attach c) := by
  rw [pieces?, if_neg inside]
  simp only [counted]
  rcases pieces? next rest with _ | _ | ⟨piece, others⟩ <;> rfl

theorem CutsInto.attach {result : Guarded CallFault (Array (List Char) × List Char)}
    {earlier : List (List Char)} {current : List Char} {c : Char} {divided : Option (List (List Char))}
    (cuts : CutsInto result earlier (current ++ [c]) divided) :
    CutsInto result earlier current (divided.bind (Call.attach c)) := by
  rcases divided with _ | _ | ⟨piece, others⟩
  · exact cuts
  · exact cuts
  · simpa [CutsInto, Call.attach] using cuts

/-- The parts that are cut out of a text are its pieces. The current part starts after all that was cut out. -/
theorem cutParts_eq {text current rest : List Char} (before : List Char) {depth start offset : Nat}
    {parts : Array (List Char)} (whole : text = before ++ current ++ rest)
    (starts : start = Text.byteLength before) (here : offset = Text.byteLength (before ++ current)) :
    CutsInto (cutParts text depth start offset parts rest) parts.toList current (pieces? depth rest) := by
  induction rest generalizing before current depth start offset parts with
  | nil =>
      subst starts whole
      by_cases closed : depth = 0
      · simp [pieces?, closed, cutParts, CutsInto]
      · simp [pieces?, closed, cutParts, CutsInto]
  | cons c rest ih =>
      have further (depth : Nat) : CutsInto (cutParts text depth start (offset + c.utf8Size) parts rest)
          parts.toList (current ++ [c]) (pieces? depth rest) :=
        ih before (by simp [whole]) starts
          (by simp [here, Text.byteLength_append, Text.byteLength, Nat.add_assoc])
      unfold cutParts
      by_cases opening : c = '('
      · rw [pieces?_attach (depth + 1) (by simp [opening]) (by simp [opening])]
        simpa [opening] using (further (depth + 1)).attach
      by_cases closing : c = ')'
      · cases depth with
        | zero => simp [closing, pieces?, CutsInto]
        | succ outer =>
            rw [pieces?_attach outer (by simp) (by simp [closing])]
            simpa [closing] using (further outer).attach
      by_cases comma : c = ',' ∧ depth = 0
      · obtain ⟨rfl, rfl⟩ := comma
        have cutOut : Text.between start offset text = .ok current := by
          rw [whole, starts, here]
          exact Text.between_append before current (',' :: rest)
        have next : offset + 1 = Text.byteLength (before ++ current ++ [',']) := by
          rw [Text.byteLength_append, ← here]
          rfl
        have others : CutsInto (cutParts text 0 (offset + 1) (offset + ','.utf8Size) (parts.push current) rest)
            (parts.push current).toList [] (pieces? 0 rest) :=
          ih (before ++ current ++ [',']) (by simp [whole]) next (by rw [List.append_nil]; exact next)
        simp only [pieces?, cutOut, and_self, if_true]
        rcases divided : pieces? 0 rest with _ | _ | ⟨piece, pieces⟩
        · rw [divided] at others
          exact others
        · cases weight_of_pieces? divided
        · rw [divided] at others
          simpa [CutsInto] using others
      · rw [pieces?_attach depth comma (by simp [opening, closing])]
        simpa [opening, closing, comma] using (further depth).attach

/-- The parts of a text without empty ones. -/
theorem cutTopLevel_eq (text : List Char) : cutTopLevel text = Guarded.of (match pieces? 0 text with
    | some (name :: parts) =>
        if (name :: parts).any List.isEmpty then .error .emptyArgument else .ok (name, parts)
    | _ => .error .unbalanced) := by
  have cuts : CutsInto (cutParts text 0 0 0 #[] text) [] [] (pieces? 0 text) :=
    cutParts_eq [] rfl rfl rfl
  rw [cutTopLevel]
  generalize pieces? 0 text = divided at cuts ⊢
  rcases divided with _ | _ | ⟨name, parts⟩
  · rw [show cutParts text 0 0 0 #[] text = _ from cuts]
    rfl
  · rw [show cutParts text 0 0 0 #[] text = _ from cuts]
    rfl
  · obtain ⟨earlier, last, done, same⟩ := cuts
    have empty : (earlier.push last).any List.isEmpty = (name :: parts).any List.isEmpty := by
      rw [← Array.any_toList, Array.toList_push, same]
      rfl
    simp only [done, Guarded.of_ok_bind, empty]
    split
    · rfl
    · cases first : earlier.toList with
      | nil =>
          rw [first] at same
          cases same
          rfl
      | cons initial others =>
          rw [first] at same
          cases same
          rfl

theorem readCompact_eq (text : List Char) : readCompact text = match inner? text with
    | none => .error .missingParentheses
    | some inside => match pieces? 0 inside with
      | some (name :: parts) =>
          if (name :: parts).any List.isEmpty then .error .emptyArgument
          else if !isFunctionName name then .error .invalidName
          else (readArguments parts).map fun arguments => ⟨String.ofList name, arguments⟩
      | _ => .error .unbalanced := by
  rw [readCompact]
  split
  · next outside => rw [outside]
  · next inside enclosed =>
      simp only [enclosed]
      split
      · next none => rw [none]
      · next none => rw [none]
      · next name parts divided => rw [divided]

mutual

/-- A call inside a call is shorter, so reading by offsets comes to an end. -/
theorem readSliced_eq (text : List Char) : readSliced text = Guarded.of (readCompact text) := by
  rw [readSliced, readCompact_eq]
  cases enclosed : inner? text with
  | none => rfl
  | some inside =>
      simp only [cutTopLevel_eq]
      rcases divided : pieces? 0 inside with _ | _ | ⟨name, parts⟩
      · rfl
      · rfl
      · have shorter : ∀ part ∈ parts, part.length < text.length := by
          intro part member
          have outer := length_of_inner? enclosed
          have whole := weight_of_pieces? divided
          have inner := length_lt_weight member
          rw [weight] at whole
          omega
        dsimp only
        split
        · rfl
        · simp only [Guarded.of_ok_bind]
          split
          · rfl
          · rw [readParts_eq parts shorter]
            cases readArguments parts <;> rfl
termination_by (text.length, 1, 0)

theorem readParts_eq {length : Nat} (parts : List (List Char))
    (shorter : ∀ part ∈ parts, part.length < length) :
    readParts length parts = Guarded.of (readArguments parts) := by
  cases parts with
  | nil =>
      rw [readParts, readArguments]
      rfl
  | cons part parts =>
      rw [List.forall_mem_cons] at shorter
      rw [readParts, readArguments, readParts_eq parts shorter.2]
      by_cases call : part.head? = some '('
      · simp only [if_pos call, if_pos shorter.1, readSliced_eq part, Guarded.map_of]
        cases readCompact part with
        | error fault => rfl
        | ok invoked => cases readArguments parts <;> rfl
      · simp only [if_neg call]
        cases Variable.read? part with
        | none => rfl
        | some name => cases readArguments parts <;> rfl
termination_by (length, 0, parts.length)

end

theorem readByOffset_eq (text : List Char) : readByOffset text = Guarded.of (read text) :=
  readSliced_eq (Text.withoutBlanks text)

end Call

/-! ## Tokens -/

namespace Assembly

namespace Token

/-- With a parenthesis open, the counter does not go below 0. -/
theorem callEndFrom_eq (depth offset : Nat) (text : List Char) :
    callEndFrom (depth + 1) offset text =
      .ok ((splitCall? depth text).map fun parts => offset + Text.byteLength parts.1) := by
  induction text generalizing depth offset with
  | nil => rfl
  | cons c rest ih =>
      unfold callEndFrom splitCall?
      by_cases opening : c = '('
      · simp [opening, ih, Text.byteLength, Function.comp_def, Nat.add_assoc]
      by_cases closing : c = ')'
      · subst closing
        cases depth with
        | zero => rfl
        | succ outer => simp [ih, Text.byteLength, Function.comp_def, Nat.add_assoc]
      · simp [opening, closing, ih, Text.byteLength, Function.comp_def, Nat.add_assoc]

example : callEnd [')'] = .error .counter := by decide

theorem callEnd_eq (rest : List Char) : callEnd ('(' :: rest) =
    .ok ((splitCall? 0 rest).map fun parts => Text.byteLength ('(' :: parts.1)) :=
  callEndFrom_eq 0 1 rest

theorem first_call (rest : List Char) : first ('(' :: rest) = Guarded.of (match splitCall? 0 rest with
    | none => .error .unterminatedCall
    | some (inside, _) => .ok (.call ('(' :: inside), Text.byteLength ('(' :: inside))) := by
  have opens : ('(' :: rest).head? = some '(' := rfl
  rw [first, if_pos opens, callEnd_eq]
  cases split : splitCall? 0 rest with
  | none => rfl
  | some parts =>
      obtain ⟨inside, after⟩ := parts
      have whole : '(' :: rest = '(' :: inside ++ after := by rw [List.cons_append, append_of_splitCall? split]
      have cut : Text.upTo (Text.byteLength ('(' :: inside)) ('(' :: rest) = .ok ('(' :: inside) := by
        rw [whole, Text.upTo_append]
      simp only [Option.map_some, Guarded.lift_ok, Guarded.of_ok_bind, cut]
      rfl

theorem first_word {c : Char} {rest : List Char} (going : endsWord c = false) :
    first (c :: rest) = Guarded.of ((ofWord (c :: rest.takeWhile fun d => !endsWord d)).map fun token =>
      (token, Text.byteLength (c :: rest.takeWhile fun d => !endsWord d))) := by
  have word : (c :: rest).takeWhile (fun d => !endsWord d) = c :: rest.takeWhile fun d => !endsWord d := by
    simp [going]
  have stop : (Text.find? endsWord (c :: rest)).getD (Text.byteLength (c :: rest)) =
      Text.byteLength (c :: rest.takeWhile fun d => !endsWord d) := by
    rw [← word]
    rcases Text.find?_eq endsWord (c :: rest) with ⟨none, whole⟩ | found
    · rw [none, whole]
      rfl
    · rw [found]
      rfl
  have cut : Text.upTo (Text.byteLength (c :: rest.takeWhile fun d => !endsWord d)) (c :: rest) =
      .ok (c :: rest.takeWhile fun d => !endsWord d) := by
    have parts := Text.upTo_append ((c :: rest).takeWhile fun d => !endsWord d)
      ((c :: rest).dropWhile fun d => !endsWord d)
    rwa [List.takeWhile_append_dropWhile, word] at parts
  have other : ¬(c :: rest).head? = some '(' := by
    intro same
    obtain rfl : c = '(' := by simpa using same
    cases going
  rw [first, if_neg other]
  simp only [stop, cut, Guarded.lift_ok, Guarded.of_ok_bind]
  cases ofWord (c :: rest.takeWhile fun d => !endsWord d) <;> rfl

theorem scan_dropWhile (text : List Char) : scan (text.dropWhile Text.isBlank) = scan text := by
  conv_rhs => rw [← List.takeWhile_append_dropWhile (p := Text.isBlank) (l := text)]
  exact (scan_blanks (fun c => List.mem_takeWhile_imp) _).symm

theorem head_dropWhile (text : List Char) :
    ∀ c ∈ (text.dropWhile Text.isBlank).head?, Text.isBlank c = false := by
  intro c first
  have stops := List.head?_dropWhile_not Text.isBlank text
  rwa [Option.mem_def.mp first] at stops

/-- What is left after a token starts where the token ends, and it is shorter. -/
theorem onward_shorter {text piece after : List Char} (whole : text = piece ++ after) (nonempty : piece ≠ []) :
    Text.onward (Text.byteLength piece) text = .ok after ∧
      (after.dropWhile Text.isBlank).length < text.length := by
  have positive := List.length_pos_iff.mpr nonempty
  have dropped := (List.dropWhile_sublist Text.isBlank (l := after)).length_le
  subst whole
  refine ⟨Text.onward_append piece after, ?_⟩
  rw [List.length_append]
  omega

theorem scanByOffset_eq (text : List Char) (start : ∀ c ∈ text.head?, Text.isBlank c = false) :
    scanByOffset text = Guarded.of (scan text) := by
  -- The token is read, and the loop goes on with the rest.
  have goesOn {token : Token} {piece after : List Char} (whole : text = piece ++ after)
      (nonempty : piece ≠ []) :
      (do
        let rest := (← Text.onward (Text.byteLength piece) text).dropWhile Text.isBlank
        if _shorter : rest.length < text.length then return token :: (← scanByOffset rest)
        else Guarded.crash .stuck : Guarded Fault (List Token)) =
      Guarded.of ((scan after).map (token :: ·)) := by
    obtain ⟨left, shorter⟩ := onward_shorter whole nonempty
    simp only [left, Guarded.lift_ok, Guarded.of_ok_bind, dif_pos shorter]
    rw [scanByOffset_eq (after.dropWhile Text.isBlank) (head_dropWhile after), scan_dropWhile]
    cases scan after <;> rfl
  rw [scanByOffset]
  cases text with
  | nil =>
      rw [if_pos rfl, scan_nil]
      rfl
  | cons c rest =>
      rw [if_neg (List.cons_ne_nil c rest)]
      by_cases opening : c = '('
      · subst opening
        rw [first_call, scan_paren]
        cases split : splitCall? 0 rest with
        | none => rfl
        | some parts =>
            obtain ⟨inside, after⟩ := parts
            have whole : '(' :: rest = '(' :: inside ++ after := by
              rw [List.cons_append, append_of_splitCall? split]
            exact goesOn whole (List.cons_ne_nil _ _)
      · have going : endsWord c = false := by simp [endsWord, start c rfl, opening]
        have whole : c :: rest = (c :: rest.takeWhile fun d => !endsWord d) ++
            rest.dropWhile fun d => !endsWord d := by
          rw [List.cons_append, List.takeWhile_append_dropWhile]
        rw [first_word going, scan_word going]
        cases ofWord (c :: rest.takeWhile fun d => !endsWord d) with
        | error fault => rfl
        | ok token => exact goesOn whole (List.cons_ne_nil _ _)
termination_by text.length

theorem withoutComment_eq (line : List Char) : withoutComment line = .ok (line.takeWhile (· ≠ ';')) := by
  have before : (fun c : Char => !decide (c = ';')) = fun c => decide (c ≠ ';') := by
    funext c
    exact decide_not.symm
  have cut := Text.upTo_append (line.takeWhile (· ≠ ';')) (line.dropWhile (· ≠ ';'))
  rw [List.takeWhile_append_dropWhile] at cut
  have found := Text.find?_eq (· = ';') line
  rw [before] at found
  rw [withoutComment]
  rcases found with ⟨none, whole⟩ | some
  · rw [none, whole]
  · rw [some]
    exact cut

theorem ofLineByOffset_eq (line : List Char) : ofLineByOffset line = Guarded.of (ofLine line) := by
  rw [ofLineByOffset, withoutComment_eq, Guarded.lift_ok, Guarded.of_ok_bind,
    scanByOffset_eq _ (head_dropWhile _), scan_dropWhile, ofLine]

end Token

/-! ## Statements -/

/-- A reader takes one operand, whatever comes after it. -/
structure Operands.TakesOne {α : Type} (reader : Operands α) : Prop where
  needed : ∃ fault, reader [] = .error fault
  taken : ∀ token rest, reader (token :: rest) = (reader.run' [token]).map (·, rest)

namespace Operands

variable {missing : Fault}

theorem takesOne_variable : TakesOne (takeVariable missing) where
  needed := ⟨missing, rfl⟩
  taken token rest := by
    cases token with
    | word text => simp only [takeVariable, StateT.run', bind_apply, next]; cases Variable.read? text <;> rfl
    | label | number | call => rfl

theorem takesOne_target : TakesOne (takeTarget missing) where
  needed := ⟨missing, rfl⟩
  taken token rest := by
    cases token with
    | word text => simp only [takeTarget, StateT.run', bind_apply, next]; cases Label.read? text <;> rfl
    | label | number | call => rfl

theorem takesOne_constant : TakesOne (takeConstant missing) where
  needed := ⟨missing, rfl⟩
  taken token rest := by cases token <;> rfl

theorem takesOne_call : TakesOne (takeCall missing) where
  needed := ⟨missing, rfl⟩
  taken token rest := by
    cases token with
    | call text => simp only [takeCall, StateT.run', bind_apply, next]; cases Call.read text <;> rfl
    | label | number | word => rfl

end Operands

theorem Operands.bind_finished {α β : Type} (reader : Operands α) (later : α → Operands β)
    (tokens : List Token) :
    ((reader >>= later) <* finished).run' tokens = match reader tokens with
      | .error fault => .error fault
      | .ok (value, rest) => (later value <* finished).run' rest := by
  change Prod.fst <$> ((reader >>= later) >>= fun value => finished >>= fun _ => pure value) tokens = _
  rw [bind_assoc, bind_apply]
  cases reader tokens <;> rfl

namespace Indexed

variable {α β γ : Type} {missing : Fault} {tokens : List Token}

theorem call_eq : call missing = ofOperands (Operands.takeCall missing) := by
  funext tokens index
  rw [call, ofOperands]
  cases tokens[index]? with
  | none => rfl
  | some token =>
      cases token with
      | call text =>
          dsimp only
          rw [Call.readByOffset_eq, Guarded.adapt_of]
          simp only [Operands.takeCall, StateT.run', Operands.bind_apply, Operands.next, Option.toList_some]
          cases Call.read text <;> rfl
      | label | number | word => rfl

/-- Reading by an index and reading from the front agree; if an operand is read, the index of the next one is in
the list or at its end. -/
theorem ofOperands_cases {reader : Operands α} (one : reader.TakesOne) {index : Nat}
    (within : index ≤ tokens.length) :
    (∃ fault, ofOperands reader tokens index = Guarded.of (.error fault) ∧
      reader (tokens.drop index) = .error fault) ∨
    ∃ value, ofOperands reader tokens index = Guarded.of (.ok value) ∧
      reader (tokens.drop index) = .ok (value, tokens.drop (index + 1)) ∧ index + 1 ≤ tokens.length := by
  rw [ofOperands]
  rcases Nat.lt_or_eq_of_le within with inside | rfl
  · rw [List.getElem?_eq_getElem inside, List.drop_eq_getElem_cons inside, one.taken, Option.toList_some]
    cases reader.run' [tokens[index]] with
    | error fault => exact .inl ⟨fault, rfl, rfl⟩
    | ok value => exact .inr ⟨value, rfl, rfl, inside⟩
  · obtain ⟨fault, failed⟩ := one.needed
    rw [List.getElem?_eq_none (Nat.le_refl _), List.drop_length, failed]
    refine .inl ⟨fault, ?_, rfl⟩
    simp [StateT.run', failed]

/-- If what comes after an operand is read alike, so is the whole. -/
theorem ofOperands_bind {reader : Operands α} (one : reader.TakesOne) {index : Nat}
    (within : index ≤ tokens.length) {next : α → Guarded Fault β} {later : α → Operands β}
    (alike : ∀ value, index + 1 ≤ tokens.length →
      next value = Guarded.of ((later value <* Operands.finished).run' (tokens.drop (index + 1)))) :
    (ofOperands reader tokens index >>= next) =
      Guarded.of (((reader >>= later) <* Operands.finished).run' (tokens.drop index)) := by
  rw [Operands.bind_finished]
  rcases ofOperands_cases one within with ⟨fault, indexed, read⟩ | ⟨value, indexed, read, inside⟩
  · rw [indexed, read]
    rfl
  · rw [indexed, read]
    exact alike value inside

theorem finished_eq {start : Nat} (within : start ≤ tokens.length) (value : α) :
    (do finished tokens start; return value) =
      Guarded.of ((pure value <* Operands.finished).run' (tokens.drop start)) := by
  rw [finished, Token.onward, if_pos within]
  cases tokens.drop start <;> rfl

theorem unary_eq {first : Operands α} (one : first.TakesOne) (make : α → Operation) (tokens : List Token) :
    unary (ofOperands first) make tokens =
      Guarded.of (((do return make (← first)) <* Operands.finished).run' tokens) :=
  ofOperands_bind one (Nat.zero_le _) fun _ within => finished_eq within _

theorem binary_eq {first : Operands α} {second : Operands β} (one : first.TakesOne) (two : second.TakesOne)
    (make : α → β → Operation) (tokens : List Token) :
    binary (ofOperands first) (ofOperands second) make tokens =
      Guarded.of (((do return make (← first) (← second)) <* Operands.finished).run' tokens) :=
  ofOperands_bind one (Nat.zero_le _) fun _ within =>
    ofOperands_bind two within fun _ within => finished_eq within _

theorem ternary_eq {first : Operands α} {second : Operands β} {third : Operands γ} (one : first.TakesOne)
    (two : second.TakesOne) (three : third.TakesOne) (make : α → β → γ → Operation) (tokens : List Token) :
    ternary (ofOperands first) (ofOperands second) (ofOperands third) make tokens =
      Guarded.of (((do return make (← first) (← second) (← third)) <* Operands.finished).run' tokens) :=
  ofOperands_bind one (Nat.zero_le _) fun _ within =>
    ofOperands_bind two within fun _ within =>
      ofOperands_bind three within fun _ within => finished_eq within _

end Indexed

/-- Every operand is looked for behind operands that are there, and nothing is looked for behind the end. -/
theorem operationByIndex_eq (kind : Kind) (tokens : List Token) :
    operationByIndex kind tokens = Guarded.of ((operation kind <* Operands.finished).run' tokens) := by
  cases kind with
  | increase | decrease | neutral | zeroVariable => exact Indexed.unary_eq Operands.takesOne_variable _ tokens
  | gotoLabel => exact Indexed.unary_eq Operands.takesOne_target _ tokens
  | jumpNotZero | jumpZero =>
      exact Indexed.binary_eq Operands.takesOne_variable Operands.takesOne_target _ tokens
  | constantAssignment =>
      exact Indexed.binary_eq Operands.takesOne_variable Operands.takesOne_constant _ tokens
  | assignment => exact Indexed.binary_eq Operands.takesOne_variable Operands.takesOne_variable _ tokens
  | quote =>
      simp only [operationByIndex, Indexed.call_eq]
      exact Indexed.binary_eq Operands.takesOne_variable Operands.takesOne_call _ tokens
  | jumpEqualConstant =>
      exact Indexed.ternary_eq Operands.takesOne_variable Operands.takesOne_constant
        Operands.takesOne_target _ tokens
  | jumpEqualVariable =>
      exact Indexed.ternary_eq Operands.takesOne_variable Operands.takesOne_variable
        Operands.takesOne_target _ tokens
  | jumpEqualFunction =>
      simp only [operationByIndex, Indexed.call_eq]
      exact Indexed.ternary_eq Operands.takesOne_variable Operands.takesOne_call
        Operands.takesOne_target _ tokens

theorem statementByIndex_eq (label : Option Label) (first : Token) (rest : List Token) :
    statementByIndex label (first :: rest) = Guarded.of (statement label first rest) := by
  cases first with
  | label | number | call => rfl
  | word word =>
      rw [statementByIndex, statement]
      have start : Token.get (.word word :: rest) 0 = .ok (.word word) := rfl
      have others : Token.onward (.word word :: rest) 1 = .ok rest := by simp [Token.onward]
      simp only [start, others, Guarded.lift_ok, Guarded.of_ok_bind]
      cases directive? word with
      | some reader =>
          change (Guarded.of (Prod.fst <$> (reader <* Operands.finished) rest) >>= _) =
            Guarded.of ((reader <* Operands.finished) rest >>= _)
          cases (reader <* Operands.finished) rest with
          | error fault => rfl
          | ok pair => cases label <;> rfl
      | none =>
          cases Kind.ofMnemonic? word with
          | none => rfl
          | some kind =>
              simp only [operationByIndex_eq]
              change (Guarded.of (Prod.fst <$> (operation kind <* Operands.finished) rest) >>= _) =
                Guarded.of ((operation kind <* Operands.finished) rest >>= _)
              cases (operation kind <* Operands.finished) rest <;> rfl

theorem statementByIndex?_eq (tokens : List Token) :
    statementByIndex? tokens = Guarded.of (statement? tokens) := by
  cases tokens with
  | nil => rfl
  | cons first rest =>
      cases first with
      | label name =>
          simp only [statementByIndex?, statement?]
          cases Label.read? name with
          | none => rfl
          | some label =>
              cases rest with
              | nil => rfl
              | cons next others =>
                  simp only [statementByIndex_eq, List.cons_ne_nil, if_false, Guarded.map_of]
      | word | number | call => simp only [statementByIndex?, statement?, statementByIndex_eq, Guarded.map_of]

theorem Progress.addLinesByOffset_eq (progress : Progress) (line : Nat) (texts : List (List Char)) :
    progress.addLinesByOffset line texts = Guarded.of (progress.addLines line texts) := by
  induction texts generalizing progress line with
  | nil => rfl
  | cons text rest ih =>
      have read : (Token.ofLineByOffset text >>= statementByIndex?) = Guarded.of (Statement.ofLine? text) := by
        rw [Token.ofLineByOffset_eq, Statement.ofLine?]
        cases Token.ofLine text with
        | error fault => rfl
        | ok tokens => exact statementByIndex?_eq tokens
      rw [addLinesByOffset, addLines, addLine, read, Guarded.adapt_of]
      cases Statement.ofLine? text with
      | error fault => rfl
      | ok found =>
          cases found with
          | none => exact ih progress (line + 1)
          | some statement =>
              change (Guarded.of (progress.add line statement) >>= fun next =>
                next.addLinesByOffset (line + 1) rest) = _
              dsimp only
              cases progress.add line statement with
              | error error => rfl
              | ok next => exact ih next (line + 1)

end Assembly

/-- Every text is read without a crash, as a source or with an error: no text is cut inside a character or
beyond its end, no list of tokens is read beyond its end, no counter of parentheses goes below 0, and every loop
and every recursion goes on with less. The result is that of reading from front to back. -/
theorem Source.assembly_never_crashes (text : String) :
    Source.assembleByOffset text = .ok (Source.assemble text) := by
  rw [Source.assembleByOffset, Assembly.Progress.addLinesByOffset_eq, Source.assemble]
  cases Assembly.Progress.addLines {} 1 (Text.lines text.toList) <;> rfl

end CounterMachine
