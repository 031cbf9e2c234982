import CounterMachine.Assembly.Reading
import CounterMachine.Proofs.LineText
set_option autoImplicit false

/-!
# Listings are read back

A source whose names, variables and targets are legible is read back from its listing: the text is divided
into the written lines, each line is read as the statement it was written for, and the statements rebuild the
definitions. Every source that is read from any text is legible, so its listing is a canonical form.
-/

namespace CounterMachine

/-! ## Lines -/

theorem ne_of_isBlank {c blank : Char} (written : isTokenChar c = true ∨ c = ' ')
    (isBlank : Text.isBlank blank = true) (space : blank ≠ ' ') : c ≠ blank := by
  rintro rfl
  rcases written with inToken | same
  · rw [not_isBlank_of_isTokenChar inToken] at isBlank
    cases isBlank
  · exact space same

namespace Text

theorem withoutReturn_of_not_mem {line : List Char} (absent : '\r' ∉ line) : withoutReturn line = line := by
  have last : line.getLast? ≠ some '\r' := fun same => absent (List.mem_of_getLast? same)
  simp [withoutReturn, last]

theorem linesFrom_append {line : List Char} (absent : '\n' ∉ line) (current rest : List Char) :
    linesFrom current (line ++ '\n' :: rest) =
      withoutReturn (current.reverse ++ line) :: linesFrom [] rest := by
  induction line generalizing current with
  | nil => simp [linesFrom]
  | cons c line ih =>
      rw [List.mem_cons, not_or] at absent
      have different : c ≠ '\n' := fun same => absent.1 same.symm
      simp [linesFrom, different, ih absent.2]

/-- A text whose lines are all ended has these lines. -/
theorem lines_join {written : List String}
    (chars : ∀ line ∈ written, ∀ c ∈ line.toList, isTokenChar c = true ∨ c = ' ') :
    lines (String.join (written.map (· ++ "\n"))).toList = written.map String.toList := by
  have joined : (String.join (written.map (· ++ "\n"))).toList =
      written.flatMap fun line => line.toList ++ ['\n'] := by
    simp [List.flatMap_map]
  rw [lines, joined]
  clear joined
  induction written with
  | nil => simp [linesFrom]
  | cons line rest ih =>
      rw [List.forall_mem_cons] at chars
      have feed : '\n' ∉ line.toList := fun member => ne_of_isBlank (chars.1 _ member) rfl (by decide) rfl
      have carriage : '\r' ∉ line.toList := fun member =>
        ne_of_isBlank (chars.1 _ member) rfl (by decide) rfl
      rw [List.flatMap_cons, List.append_assoc, List.singleton_append, linesFrom_append feed, ih chars.2]
      simp [withoutReturn_of_not_mem carriage]

end Text

/-! ## Legible sources -/

structure Definition.Legible (definition : Definition) : Prop where
  name : isFunctionName definition.name.toList = true
  body : ∀ instruction ∈ definition.body, instruction.operation.Legible

instance : DecidablePred Definition.Legible := fun definition =>
  decidable_of_iff (isFunctionName definition.name.toList = true ∧
      ∀ instruction ∈ definition.body, instruction.operation.Legible)
    ⟨fun ⟨name, body⟩ => ⟨name, body⟩, fun ⟨name, body⟩ => ⟨name, body⟩⟩

def Source.Legible (source : Source) : Prop :=
  ∀ definition ∈ source.definitions, definition.Legible

instance : DecidablePred Source.Legible := fun source =>
  inferInstanceAs (Decidable (∀ definition ∈ source.definitions, definition.Legible))

/-- The lines of a function, with its directives. -/
def Definition.block (function : Definition) : List String :=
  ("FUNCTION " ++ function.name) :: function.listing ++ ["END"]

namespace Assembly

/-! ## Reading a listing -/

theorem Draft.toDefinition_foldl (draft : Draft) (body : List Instruction) :
    (body.foldl Draft.push draft).toDefinition = ⟨draft.name, draft.body.toList ++ body⟩ := by
  induction body generalizing draft with
  | nil => simp [toDefinition]
  | cons instruction rest ih => simp [ih, push]

namespace Progress

variable {progress next : Progress} {number : Nat}

theorem addLine_spelled {statement : Statement} {line : String} (spells : Spells statement line) :
    progress.addLine number line.toList = progress.add number statement := by
  rw [addLine, spells.read]

theorem addLines_append {first second : List (List Char)}
    (ran : progress.addLines number first = .ok next) :
    progress.addLines number (first ++ second) = next.addLines (number + first.length) second := by
  induction first generalizing progress number with
  | nil =>
      cases ran
      rfl
  | cons text rest ih =>
      rw [addLines] at ran
      rw [List.cons_append, addLines]
      cases added : progress.addLine number text with
      | error error =>
          rw [added] at ran
          cases ran
      | ok middle =>
          rw [added] at ran
          simp only [ih ran, List.length_cons]
          congr 1
          omega

/-- Lines of instructions go to the main program, or to the function that is open. -/
theorem addLines_body {body : List Instruction}
    (legible : ∀ instruction ∈ body, instruction.operation.Legible) :
    progress.addLines number ((body.map Instruction.listing).map String.toList) =
      .ok (match progress.current with
        | none => { progress with program := body.foldl Draft.push progress.program }
        | some (opened, draft) =>
            { progress with current := some (opened, body.foldl Draft.push draft) }) := by
  induction body generalizing progress number with
  | nil =>
      obtain ⟨program, functions, current⟩ := progress
      cases current <;> rfl
  | cons instruction rest ih =>
      rw [List.forall_mem_cons] at legible
      obtain ⟨program, functions, current⟩ := progress
      rw [List.map_cons, List.map_cons, addLines, addLine_spelled (spells_listing legible.1)]
      cases current <;> exact ih legible.2

/-- The lines of a function add it to the functions that have been read. -/
theorem addLines_block {program : Draft} {functions : Array Definition} {function : Definition}
    (legible : function.Legible) :
    addLines ⟨program, functions, none⟩ number (function.block.map String.toList) =
      .ok ⟨program, functions.push function, none⟩ := by
  have body : addLines ⟨program, functions, some (number, { name := function.name })⟩ (number + 1)
      (function.listing.map String.toList) =
        .ok ⟨program, functions, some (number, function.body.foldl Draft.push { name := function.name })⟩ :=
    addLines_body legible.body
  have whole : (function.body.foldl Draft.push { name := function.name }).toDefinition = function := by
    simp [Draft.toDefinition_foldl]
  rw [Definition.block, List.cons_append, List.map_cons, List.map_append, addLines,
    addLine_spelled (spells_function legible.name)]
  simp only [add]
  rw [addLines_append body, List.map_singleton, addLines, addLine_spelled spells_end]
  simp only [add, whole, addLines]

theorem addLines_blocks {program : Draft} {read : Array Definition} {functions : List Definition}
    (legible : ∀ function ∈ functions, function.Legible) :
    addLines ⟨program, read, none⟩ number ((functions.flatMap Definition.block).map String.toList) =
      .ok ⟨program, read ++ functions.toArray, none⟩ := by
  induction functions generalizing read number with
  | nil => simp [addLines]
  | cons function rest ih =>
      rw [List.forall_mem_cons] at legible
      rw [List.flatMap_cons, List.map_append, addLines_append (addLines_block legible.1), ih legible.2]
      simp

end Progress

end Assembly

namespace Source

theorem listingLines_eq (source : Source) : source.listingLines =
    ("PROGRAM " ++ source.program.name) :: (source.program.listing ++
      source.functions.flatMap Definition.block) :=
  rfl

theorem chars_listingLines {source : Source} (legible : source.Legible) :
    ∀ line ∈ source.listingLines, ∀ c ∈ line.toList, isTokenChar c = true ∨ c = ' ' := by
  have body {definition : Definition} (legible : definition.Legible) :
      ∀ line ∈ definition.listing, ∀ c ∈ line.toList, isTokenChar c = true ∨ c = ' ' := by
    rw [Definition.listing, List.forall_mem_map]
    exact fun instruction member => (Assembly.spells_listing (legible.body instruction member)).chars
  simp only [Source.Legible, definitions, List.forall_mem_cons] at legible
  obtain ⟨main, auxiliary⟩ := legible
  rw [listingLines_eq, List.forall_mem_cons, List.forall_mem_append, List.forall_mem_flatMap]
  refine ⟨(Assembly.spells_program main.name).chars, body main, fun function member => ?_⟩
  have proper := auxiliary function member
  rw [Definition.block, List.forall_mem_append, List.forall_mem_cons, List.forall_mem_singleton]
  exact ⟨⟨(Assembly.spells_function proper.name).chars, body proper⟩, Assembly.spells_end.chars⟩

theorem assemble_listing {source : Source} (legible : source.Legible) :
    Source.assemble source.listing = .ok source := by
  have chars := chars_listingLines legible
  simp only [Source.Legible, definitions, List.forall_mem_cons] at legible
  obtain ⟨main, auxiliary⟩ := legible
  -- The first line takes the place of the default name, and the program is read from the second on.
  have body : Assembly.Progress.addLines { program := { name := source.program.name } } 2
      (source.program.listing.map String.toList) =
        .ok ⟨source.program.body.foldl Assembly.Draft.push { name := source.program.name }, #[], none⟩ :=
    Assembly.Progress.addLines_body main.body
  have written : Assembly.Progress.addLines {} 1 (source.listingLines.map String.toList) =
      .ok ⟨source.program.body.foldl Assembly.Draft.push { name := source.program.name },
        #[] ++ source.functions.toArray, none⟩ := by
    rw [listingLines_eq, List.map_cons, List.map_append, Assembly.Progress.addLines,
      Assembly.Progress.addLine_spelled (Assembly.spells_program main.name)]
    simp only [Assembly.Progress.add]
    rw [Assembly.Progress.addLines_append body, Assembly.Progress.addLines_blocks auxiliary]
  rw [Source.assemble, listing, Text.lines_join chars, written]
  change Except.ok _ = _
  simp [Assembly.Draft.toDefinition_foldl]

end Source

/-! ## What is read is legible -/

namespace Assembly

theorem Draft.legible_push {draft : Draft} {instruction : Instruction}
    (legible : draft.toDefinition.Legible) (operation : instruction.operation.Legible) :
    (draft.push instruction).toDefinition.Legible where
  name := legible.name
  body := by
    have before := legible.body
    simp only [toDefinition, push, Array.toList_push, List.forall_mem_append, List.forall_mem_singleton]
      at before ⊢
    exact ⟨before, operation⟩

namespace Progress

variable {progress next : Progress} {number : Nat}

/-- Everything that has been read so far is legible, the open function included. -/
structure Legible (progress : Progress) : Prop where
  program : progress.program.toDefinition.Legible
  functions : ∀ function ∈ progress.functions, function.Legible
  current : ∀ opened draft, progress.current = some (opened, draft) → draft.toDefinition.Legible

theorem legible_start : Legible {} where
  program := ⟨by decide, by simp [Draft.toDefinition]⟩
  functions := by simp
  current := nofun

theorem Legible.add (legible : progress.Legible) {statement : Statement} (proper : statement.Legible)
    (ran : progress.add number statement = .ok next) : next.Legible := by
  obtain ⟨program, functions, current⟩ := progress
  cases statement with
  | program name =>
      cases current with
      | some opened => cases ran
      | none =>
          cases ran
          exact ⟨⟨proper, legible.program.body⟩, legible.functions, nofun⟩
  | function name =>
      cases current with
      | some opened => cases ran
      | none =>
          cases ran
          refine ⟨legible.program, legible.functions, ?_⟩
          rintro opened draft ⟨⟩
          exact ⟨proper, by simp [Draft.toDefinition]⟩
  | finish =>
      cases current with
      | none => cases ran
      | some opened =>
          cases ran
          refine ⟨legible.program, ?_, nofun⟩
          intro function member
          rcases Array.mem_push.mp member with before | rfl
          · exact legible.functions function before
          · exact legible.current _ _ rfl
  | instruction written =>
      cases current with
      | none =>
          cases ran
          exact ⟨Draft.legible_push legible.program proper, legible.functions, nofun⟩
      | some opened =>
          cases ran
          refine ⟨legible.program, legible.functions, ?_⟩
          rintro line draft ⟨⟩
          exact Draft.legible_push (legible.current _ _ rfl) proper

theorem Legible.addLine (legible : progress.Legible) {text : List Char}
    (ran : progress.addLine number text = .ok next) : next.Legible := by
  unfold Progress.addLine at ran
  split at ran
  · cases ran
  · cases ran
    exact legible
  · next statement read => exact legible.add (legible_of_ofLine? read) ran

theorem Legible.addLines (legible : progress.Legible) {texts : List (List Char)}
    (ran : progress.addLines number texts = .ok next) : next.Legible := by
  induction texts generalizing progress number with
  | nil =>
      cases ran
      exact legible
  | cons text rest ih =>
      unfold Progress.addLines at ran
      split at ran
      · cases ran
      · next middle added => exact ih (legible.addLine added) ran

theorem Legible.finish (legible : progress.Legible) {source : Source}
    (ran : progress.finish = .ok source) : source.Legible := by
  unfold Progress.finish at ran
  split at ran
  · cases ran
  · cases ran
    rw [Source.Legible, Source.definitions, List.forall_mem_cons]
    refine ⟨legible.program, fun function member => ?_⟩
    exact legible.functions function (Array.mem_toList_iff.mp member)

end Progress

end Assembly

namespace Source

theorem assemble_ok {text : String} {source : Source} (ran : assemble text = .ok source) :
    ∃ progress, Assembly.Progress.addLines {} 1 (Text.lines text.toList) = .ok progress ∧
      progress.finish = .ok source := by
  rw [assemble] at ran
  cases read : Assembly.Progress.addLines {} 1 (Text.lines text.toList) with
  | error error =>
      rw [read] at ran
      cases ran
  | ok progress =>
      rw [read] at ran
      exact ⟨progress, rfl, ran⟩

theorem legible_of_assemble {text : String} {source : Source} (ran : Source.assemble text = .ok source) :
    source.Legible := by
  obtain ⟨progress, read, finished⟩ := assemble_ok ran
  exact (Assembly.Progress.legible_start.addLines read).finish finished

/-- Legible sources are read back from their listings, and no other source is ever read: writing down what
was read yields a canonical text. -/
theorem listing_round_trip :
    (∀ source : Source, source.Legible → Source.assemble source.listing = .ok source) ∧
    (∀ (text : String) (source : Source), Source.assemble text = .ok source → source.Legible) ∧
    ∀ text canonical : String, (Source.assemble text).map listing = .ok canonical →
      (Source.assemble canonical).map listing = .ok canonical := by
  refine ⟨fun _ => assemble_listing, fun _ _ => legible_of_assemble, fun text canonical written => ?_⟩
  cases read : Source.assemble text with
  | error error =>
      rw [read] at written
      cases written
  | ok source =>
      rw [read] at written
      obtain rfl : source.listing = canonical := Except.ok.inj written
      rw [assemble_listing (legible_of_assemble read)]
      rfl

/-- Functions share a name with each other and with the program, a label `EXIT` is attached, a call is nested
and a constant is the greatest there is. -/
def crowdedSource : Source :=
  ⟨⟨"F", [⟨.exit, .quote .result ⟨"F", [.call "_g" [.var (.work 7), .call "H" []], .var (.input 1)]⟩⟩,
      ⟨.named 0, .constantAssignment (.work 4294967295) 18446744073709551615⟩,
      ⟨.empty, .gotoLabel (.named 0)⟩]⟩,
    [⟨"F", []⟩, ⟨"F", [⟨.named 0, .jumpEqualFunction .result ⟨"END", [.var .result]⟩ .exit⟩]⟩]⟩

theorem crowdedSource_round_trip :
    crowdedSource.Legible ∧ Source.assemble crowdedSource.listing = .ok crowdedSource ∧
      (Source.assemble crowdedSource.listing).map listing = .ok crowdedSource.listing := by
  have legible : crowdedSource.Legible := by decide
  have read := listing_round_trip.1 crowdedSource legible
  refine ⟨listing_round_trip.2.1 _ _ read, read, listing_round_trip.2.2 crowdedSource.listing _ ?_⟩
  rw [read]
  rfl

end Source

end CounterMachine
