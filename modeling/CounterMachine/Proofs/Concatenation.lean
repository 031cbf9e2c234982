import CounterMachine.Proofs.RoundTrip
set_option autoImplicit false

/-!
# Concatenation of texts

Lines are read one after the other, and a line is read in the same way wherever it stands. A text that ends
with a line feed can therefore be read apart from what follows it: two sources are put together, an error in
the second text is found as many lines later, and an error in the first text stays what it is. Only a function
that the first text leaves open is not an error yet.
-/

namespace CounterMachine

namespace Text

theorem linesFrom_append_of_ended (current : List Char) {first : List Char}
    (ended : first.getLast? = some '\n') (second : List Char) :
    linesFrom current (first ++ second) = linesFrom current first ++ lines second := by
  induction first generalizing current with
  | nil => cases ended
  | cons c rest ih =>
      rw [List.cons_append, linesFrom, linesFrom]
      cases rest with
      | nil =>
          obtain rfl : c = '\n' := by simpa using ended
          rfl
      | cons next others =>
          have remaining : (next :: others).getLast? = some '\n' := by simpa using ended
          split
          · rw [ih [] remaining, List.cons_append]
          · exact ih (c :: current) remaining

theorem lines_append {first : List Char} (ended : first.getLast? = some '\n') (second : List Char) :
    lines (first ++ second) = lines first ++ lines second :=
  linesFrom_append_of_ended [] ended second

end Text

namespace Assembly

/-- The same fault, a number of lines further on. -/
def Error.later (error : Error) (lines : Nat) : Error :=
  { error with line := error.line + lines }

/-! ## Names of the program -/

def Statement.programName? : Statement → Option String
  | program name => some name
  | _ => none

/-- The name that a line gives to the main program. -/
def programName? (line : List Char) : Option String :=
  match Statement.ofLine? line with
  | .ok (some statement) => statement.programName?
  | _ => none

namespace Progress

variable {progress next : Progress} {number : Nat}

theorem name_add {statement : Statement} (ran : progress.add number statement = .ok next) :
    next.program.name = statement.programName?.getD progress.program.name := by
  obtain ⟨program, functions, current⟩ := progress
  cases statement with
  | program | function | finish | instruction =>
      cases current with
      | none | some =>
          cases ran <;> rfl

theorem name_addLine {text : List Char} (ran : progress.addLine number text = .ok next) :
    next.program.name = (programName? text).getD progress.program.name := by
  rw [programName?]
  unfold addLine at ran
  split at ran
  · cases ran
  · next blank =>
      cases ran
      rw [blank]
      rfl
  · next statement read =>
      rw [read]
      exact name_add ran

/-- The last line that names the program counts. -/
theorem name_addLines {texts : List (List Char)} (ran : progress.addLines number texts = .ok next) :
    next.program.name = (texts.filterMap programName?).getLast?.getD progress.program.name := by
  induction texts generalizing progress number with
  | nil =>
      cases ran
      rfl
  | cons text rest ih =>
      unfold addLines at ran
      split at ran
      · cases ran
      · next middle added =>
          rw [ih ran, name_addLine added]
          cases named : programName? text with
          | none => rw [List.filterMap_cons_none named]; rfl
          | some name => rw [List.filterMap_cons_some named, List.getLast?_cons]; rfl

/-! ## Reading on -/

theorem addLines_append_error {first : List (List Char)} {error : Error}
    (ran : progress.addLines number first = .error error) (second : List (List Char)) :
    progress.addLines number (first ++ second) = .error error := by
  induction first generalizing progress number with
  | nil => cases ran
  | cons text rest ih =>
      rw [List.cons_append]
      unfold addLines at ran ⊢
      split at ran
      · cases ran
        rfl
      · next middle added => exact ih ran

/-- What has been read of some lines alone, and what has been read when other lines, a number of them, came
before. The name of the program is left out. -/
structure Continues (earlier : Progress) (lines : Nat) (alone whole : Progress) : Prop where
  body : whole.program.body = earlier.program.body ++ alone.program.body
  functions : whole.functions = earlier.functions ++ alone.functions
  current : whole.current = alone.current.map (Prod.map (· + lines) id)

/-- The outcomes of reading some lines alone and after other lines. -/
inductive Resumed (earlier : Progress) (lines : Nat) :
    Except Error Progress → Except Error Progress → Prop where
  | ok {alone whole : Progress} (continues : earlier.Continues lines alone whole) :
      Resumed earlier lines (.ok alone) (.ok whole)
  | error (error : Error) : Resumed earlier lines (.error error) (.error (error.later lines))

variable {earlier alone whole : Progress} {lines : Nat}

theorem continues_start (closed : earlier.current = none) (lines : Nat) :
    earlier.Continues lines {} earlier where
  body := by simp
  functions := by simp
  current := by simp [closed]

theorem Continues.add (continues : earlier.Continues lines alone whole) (number : Nat)
    (statement : Statement) :
    earlier.Resumed lines (alone.add number statement) (whole.add (number + lines) statement) := by
  obtain ⟨program, functions, current⟩ := alone
  obtain ⟨wholeProgram, wholeFunctions, wholeCurrent⟩ := whole
  obtain ⟨body, together, opened⟩ := continues
  dsimp only at body together opened
  subst together opened
  cases statement with
  | program name =>
      cases current with
      | none => exact .ok ⟨body, rfl, rfl⟩
      | some _ => exact .error _
  | function name =>
      cases current with
      | none => exact .ok ⟨body, rfl, rfl⟩
      | some _ => exact .error _
  | finish =>
      cases current with
      | none => exact .error _
      | some _ => exact .ok ⟨body, by simp, rfl⟩
  | instruction written =>
      cases current with
      | none => exact .ok ⟨by simp [Draft.push, body], rfl, rfl⟩
      | some _ => exact .ok ⟨body, rfl, rfl⟩

theorem Continues.addLine (continues : earlier.Continues lines alone whole) (number : Nat)
    (text : List Char) :
    earlier.Resumed lines (alone.addLine number text) (whole.addLine (number + lines) text) := by
  unfold Progress.addLine
  split
  · exact .error _
  · exact .ok continues
  · next statement read => exact continues.add number statement

theorem Continues.addLines (continues : earlier.Continues lines alone whole) (number : Nat)
    (texts : List (List Char)) :
    earlier.Resumed lines (alone.addLines number texts) (whole.addLines (number + lines) texts) := by
  induction texts generalizing alone whole number with
  | nil => exact .ok continues
  | cons text rest ih =>
      have first := continues.addLine number text
      unfold Progress.addLines
      generalize alone.addLine number text = outcome at first ⊢
      generalize whole.addLine (number + lines) text = other at first ⊢
      cases first with
      | error error => exact .error error
      | ok continues =>
          have others := ih continues (number + 1)
          rwa [Nat.add_right_comm] at others

theorem current_of_finish {source : Source} (ran : progress.finish = .ok source) :
    progress.current = none ∧ source = ⟨progress.program.toDefinition, progress.functions.toList⟩ := by
  unfold finish at ran
  split at ran
  · cases ran
  · next closed =>
      cases ran
      exact ⟨closed, rfl⟩

theorem Continues.finish (continues : earlier.Continues lines alone whole) {source : Source}
    (ran : alone.finish = .ok source) :
    whole.finish = .ok ⟨⟨whole.program.name, earlier.program.body.toList ++ source.program.body⟩,
      earlier.functions.toList ++ source.functions⟩ := by
  obtain ⟨closed, rfl⟩ := current_of_finish ran
  have alsoClosed : whole.current = none := by simp [continues.current, closed]
  simp [Progress.finish, alsoClosed, Draft.toDefinition, continues.body, continues.functions]

theorem Continues.finish_error (continues : earlier.Continues lines alone whole) {error : Error}
    (ran : alone.finish = .error error) : whole.finish = .error (error.later lines) := by
  unfold Progress.finish at ran
  split at ran
  · next opened draft found =>
      cases ran
      simp [Progress.finish, continues.current, found, Error.later]
  · cases ran

theorem Resumed.finish {outcome other : Except Error Progress}
    (resumed : earlier.Resumed lines outcome other) {source : Source}
    (ran : outcome >>= Progress.finish = .ok source) :
    ∃ name, other >>= Progress.finish =
      .ok ⟨⟨name, earlier.program.body.toList ++ source.program.body⟩,
        earlier.functions.toList ++ source.functions⟩ := by
  cases resumed with
  | ok continues => exact ⟨_, continues.finish ran⟩
  | error error => cases ran

theorem Resumed.finish_error {outcome other : Except Error Progress}
    (resumed : earlier.Resumed lines outcome other) {error : Error}
    (ran : outcome >>= Progress.finish = .error error) :
    other >>= Progress.finish = .error (error.later lines) := by
  cases resumed with
  | ok continues => exact continues.finish_error ran
  | error problem =>
      cases ran
      rfl

end Progress

end Assembly

namespace Source

/-- The name that the last line with a name gives to the program. -/
def lastProgramName (text : String) : String :=
  ((Text.lines text.toList).filterMap Assembly.programName?).getLast?.getD "Main"

/-- An error is found in a line, or it is a function that is still open at the end. -/
theorem assemble_error {text : String} {error : Assembly.Error} (ran : assemble text = .error error) :
    Assembly.Progress.addLines {} 1 (Text.lines text.toList) = .error error ∨
      ∃ name, error.fault = .unclosedFunction name := by
  rw [assemble] at ran
  cases read : Assembly.Progress.addLines {} 1 (Text.lines text.toList) with
  | error other =>
      rw [read] at ran
      cases ran
      exact .inl rfl
  | ok progress =>
      rw [read] at ran
      change progress.finish = .error error at ran
      unfold Assembly.Progress.finish at ran
      split at ran
      · cases ran
        exact .inr ⟨_, rfl⟩
      · cases ran

theorem name_of_assemble {text : String} {source : Source} (ran : assemble text = .ok source) :
    source.program.name = lastProgramName text := by
  obtain ⟨progress, read, finished⟩ := assemble_ok ran
  obtain ⟨_, rfl⟩ := Assembly.Progress.current_of_finish finished
  exact Assembly.Progress.name_addLines read

/-- Reading goes on with the second text where the first one ended. -/
theorem assemble_append {first second : String} (ended : first.toList.getLast? = some '\n') {left : Source}
    (accepted : assemble first = .ok left) :
    ∃ (progress : Assembly.Progress) (outcome : Except Assembly.Error Assembly.Progress),
      left = ⟨progress.program.toDefinition, progress.functions.toList⟩ ∧
      progress.Resumed (Text.lines first.toList).length
        (Assembly.Progress.addLines {} 1 (Text.lines second.toList)) outcome ∧
      assemble (first ++ second) = outcome >>= Assembly.Progress.finish := by
  obtain ⟨progress, read, finished⟩ := assemble_ok accepted
  obtain ⟨closed, rfl⟩ := Assembly.Progress.current_of_finish finished
  have start := Assembly.Progress.continues_start closed (Text.lines first.toList).length
  refine ⟨progress, _, rfl, start.addLines 1 _, ?_⟩
  rw [assemble, String.toList_append, Text.lines_append ended, Assembly.Progress.addLines_append read]

/-- Texts are read line by line, so a text that ends with a line feed is read apart from the text after it. The
sources of two texts are joined, and the last name of the program counts. An error in the second text stays
the same, only its line is counted from the start of the first one. An error in the first text is found as if
nothing came after it, unless it is a function that could still be closed. -/
theorem assembly_compositional (first second : String) (ended : first.toList.getLast? = some '\n') :
    (∀ left right : Source, assemble first = .ok left → assemble second = .ok right →
      assemble (first ++ second) =
        .ok ⟨⟨lastProgramName (first ++ second), left.program.body ++ right.program.body⟩,
          left.functions ++ right.functions⟩) ∧
    (∀ (left : Source) (error : Assembly.Error), assemble first = .ok left →
      assemble second = .error error →
      assemble (first ++ second) =
        .error { error with line := error.line + (Text.lines first.toList).length }) ∧
    ∀ error : Assembly.Error, assemble first = .error error →
      (∀ name, error.fault ≠ .unclosedFunction name) → assemble (first ++ second) = .error error := by
  refine ⟨fun left right accepted alsoAccepted => ?_, fun left error accepted rejected => ?_,
    fun error rejected closed => ?_⟩
  · obtain ⟨progress, outcome, rfl, resumed, whole⟩ := assemble_append ended accepted
    obtain ⟨name, joined⟩ := resumed.finish alsoAccepted
    rw [joined] at whole
    obtain rfl : name = lastProgramName (first ++ second) := name_of_assemble whole
    exact whole
  · obtain ⟨progress, outcome, rfl, resumed, whole⟩ := assemble_append ended accepted
    exact whole.trans (resumed.finish_error rejected)
  · rcases assemble_error rejected with failed | ⟨name, unclosed⟩
    · rw [assemble, String.toList_append, Text.lines_append ended,
        Assembly.Progress.addLines_append_error failed]
      rfl
    · exact absurd unclosed (closed name)

def namedText : String :=
  "PROGRAM P\nINCREASE y\n"

theorem namedText_assembly_compositional :
    assemble (namedText ++ "PROGRAM Q\nFUNCTION F\nEND\nDECREASE x1 ; last\r\n") =
      .ok ⟨⟨"Q", [⟨.empty, .increase .result⟩, ⟨.empty, .decrease (.input 1)⟩]⟩, [⟨"F", []⟩]⟩ ∧
    assemble (namedText ++ "FUNCTION G\nFUNCTION H") = .error ⟨4, .nestedFunction⟩ ∧
    assemble ("END\n" ++ namedText) = .error ⟨1, .strayEnd⟩ := by
  have alone : assemble namedText = .ok ⟨⟨"P", [⟨.empty, .increase .result⟩]⟩, []⟩ := by decide +kernel
  have ended : namedText.toList.getLast? = some '\n' := by decide +kernel
  refine ⟨?_, ?_, ?_⟩
  · have joined := (assembly_compositional namedText "PROGRAM Q\nFUNCTION F\nEND\nDECREASE x1 ; last\r\n" ended).1
      _ ⟨⟨"Q", [⟨.empty, .decrease (.input 1)⟩]⟩, [⟨"F", []⟩]⟩ alone (by decide +kernel)
    have name : lastProgramName (namedText ++ "PROGRAM Q\nFUNCTION F\nEND\nDECREASE x1 ; last\r\n") = "Q" := by
      decide +kernel
    rwa [name] at joined
  · exact (assembly_compositional namedText "FUNCTION G\nFUNCTION H" ended).2.1 _ ⟨2, .nestedFunction⟩ alone
      (by decide +kernel)
  · exact (assembly_compositional "END\n" namedText (by decide +kernel)).2.2 ⟨1, .strayEnd⟩ (by decide +kernel)
      nofun

end Source

end CounterMachine
