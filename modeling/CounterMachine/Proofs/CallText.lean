import CounterMachine.Assembly.Fault
import CounterMachine.Proofs.Names
import CounterMachine.Proofs.Phrases
set_option autoImplicit false

/-!
# Text of calls

A legible call is written as a phrase of the grammar, so reading its text gives the call back. Conversely, every
call that is read is legible.
-/

namespace CounterMachine

/-! ## Legible arguments -/

namespace Argument

/-- Induction over an argument, with the hypothesis for all arguments of a call. -/
theorem induction {P : Argument → Prop} (var : ∀ name, P (.var name))
    (call : ∀ function arguments, (∀ argument ∈ arguments, P argument) → P (.call function arguments)) :
    ∀ argument, P argument := by
  refine @Argument.rec P (fun arguments => ∀ argument ∈ arguments, P argument) var call ?_ ?_
  · simp
  · intro argument rest first others
    exact List.forall_mem_cons.mpr ⟨first, others⟩

/-- The variables of an argument can be read back, and the called functions have proper names. -/
structure Legible (argument : Argument) : Prop where
  vars : ∀ name ∈ argument.vars, name.Legible
  calls : ∀ call ∈ argument.calls, isFunctionName call.function.toList = true

theorem legible_call {function : String} {arguments : List Argument} :
    (call function arguments).Legible ↔
      isFunctionName function.toList = true ∧ ∀ argument ∈ arguments, argument.Legible := by
  have parts : (call function arguments).Legible ↔ (∀ name ∈ varsAll arguments, name.Legible) ∧
      isFunctionName function.toList = true ∧
        ∀ call ∈ callsAll arguments, isFunctionName call.function.toList = true := by
    constructor
    · rintro ⟨vars, calls⟩
      rw [Argument.vars] at vars
      rw [Argument.calls, List.forall_mem_cons] at calls
      exact ⟨vars, calls⟩
    · rintro ⟨vars, calls⟩
      refine ⟨by rwa [Argument.vars], ?_⟩
      rwa [Argument.calls, List.forall_mem_cons]
  rw [parts, varsAll_eq_flatMap, callsAll_eq_flatMap]
  simp only [List.forall_mem_flatMap]
  constructor
  · rintro ⟨vars, named, calls⟩
    exact ⟨named, fun argument member => ⟨vars argument member, calls argument member⟩⟩
  · rintro ⟨named, each⟩
    exact ⟨fun argument member => (each argument member).vars, named,
      fun argument member => (each argument member).calls⟩

/-! ## Writing and reading -/

def text (argument : Argument) : List Char :=
  argument.render.toList

theorem text_var (name : Variable) : (var name).text = name.render.toList := by
  rw [text, render]

theorem toList_renderAll (arguments : List Argument) :
    (renderAll arguments).toList = arguments.flatMap fun argument => ',' :: argument.text := by
  induction arguments with
  | nil => simp [renderAll]
  | cons argument rest ih => simp [renderAll, ih, text]

/-- The text between the parentheses of a call. -/
def inside (function : String) (arguments : List Argument) : List Char :=
  function.toList ++ arguments.flatMap fun argument => ',' :: argument.text

theorem text_call (function : String) (arguments : List Argument) :
    (call function arguments).text = '(' :: inside function arguments ++ [')'] := by
  simp [text, render, toList_renderAll, inside]

theorem exists_phrases {arguments : List Argument}
    (each : ∀ argument ∈ arguments, ∃ phrase : Phrase, phrase.text = argument.text ∧ phrase.argument = argument) :
    ∃ phrases : List Phrase, phrases.map Phrase.text = arguments.map text ∧
      phrases.map Phrase.argument = arguments := by
  induction arguments with
  | nil => exact ⟨[], rfl, rfl⟩
  | cons argument rest ih =>
      rw [List.forall_mem_cons] at each
      obtain ⟨phrase, written, stands⟩ := each.1
      obtain ⟨phrases, writtenAll, stand⟩ := ih each.2
      exact ⟨phrase :: phrases, by rw [List.map_cons, List.map_cons, written, writtenAll],
        by rw [List.map_cons, stands, stand]⟩

/-- A legible argument is written as the grammar says. -/
theorem Legible.exists_phrase {argument : Argument} (legible : argument.Legible) :
    ∃ phrase : Phrase, phrase.text = argument.text ∧ phrase.argument = argument := by
  induction argument using induction with
  | var name =>
      have spelled := Variable.read?_eq_some.mp (Variable.read?_render (legible.vars name (by simp [Argument.vars])))
      exact ⟨.var name.render.toList name spelled, (text_var name).symm, rfl⟩
  | call function arguments ih =>
      obtain ⟨named, each⟩ := legible_call.mp legible
      obtain ⟨phrases, written, stand⟩ := exists_phrases fun argument member =>
        ih argument member (each argument member)
      refine ⟨.call function.toList named phrases, ?_, ?_⟩
      · rw [Phrase.text, Phrase.textAll_eq_flatMap, written, List.flatMap_map, text_call, inside]
      · rw [Phrase.argument, Phrase.argumentAll_eq_map, stand, String.ofList_toList]

theorem Legible.inside_balanced {function : String} {arguments : List Argument}
    (legible : (call function arguments).Legible) : Balanced (inside function arguments) := by
  obtain ⟨phrase, written, stands⟩ := legible.exists_phrase
  cases phrase with
  | var spelling name spelled => cases stands
  | call name named phrases =>
      rw [text_call, Phrase.text] at written
      rw [← List.append_cancel_right (List.cons.inj written).2]
      exact Phrase.balanced_inside named phrases

theorem Legible.chars {argument : Argument} (legible : argument.Legible) :
    ∀ c ∈ argument.text, isTokenChar c = true := by
  obtain ⟨phrase, written, _⟩ := legible.exists_phrase
  exact written ▸ phrase.chars

end Argument

theorem Phrase.legible (phrase : Phrase) : phrase.argument.Legible := by
  induction phrase using Phrase.induction with
  | var spelling name spelled =>
      have legible := Variable.legible_of_read? (Variable.read?_eq_some.mpr spelled)
      exact ⟨by simpa [Phrase.argument, Argument.vars] using legible,
        by simp [Phrase.argument, Argument.calls]⟩
  | call name named arguments ih =>
      rw [Phrase.argument, argumentAll_eq_map]
      refine Argument.legible_call.mpr ⟨by rwa [String.toList_ofList], ?_⟩
      simpa only [List.forall_mem_map] using ih

namespace Call

/-- Writing a call and reading it gives the call back. -/
theorem read_render {call : Call} (legible : call.toArgument.Legible) :
    read call.render.toList = .ok call := by
  have unblanked : Text.withoutBlanks call.toArgument.text = call.toArgument.text := by
    refine List.filter_eq_self.mpr fun c member => ?_
    simp [not_isBlank_of_isTokenChar (legible.chars c member)]
  change readCompact (Text.withoutBlanks call.toArgument.text) = .ok call
  rw [unblanked]
  exact readCompact_iff.mpr legible.exists_phrase

/-- Every call that is read is legible. -/
theorem legible_of_readCompact {text : List Char} {call : Call} (ran : readCompact text = .ok call) :
    call.toArgument.Legible := by
  obtain ⟨phrase, _, stands⟩ := readCompact_iff.mp ran
  exact stands ▸ phrase.legible

theorem ofText_ok {text : String} {call : Call} : ofText text = .ok call ↔ read text.toList = .ok call := by
  rw [ofText]
  cases read text.toList <;> simp

/-- Apart from blanks, a call is read from exactly the texts that the grammar derives; the derivation is unique
and the call is what it stands for. So a legible call is read back from its text. -/
theorem reading_exact :
    (∀ (text : String) (call : Call), ofText text = .ok call ↔
      ∃ phrase : Phrase, phrase.text = Text.withoutBlanks text.toList ∧ phrase.argument = call.toArgument) ∧
    Function.Injective Phrase.text ∧
    ∀ call : Call, call.toArgument.Legible → ofText call.render = .ok call := by
  refine ⟨fun text call => ?_, Phrase.text_injective, fun call legible => ?_⟩
  · rw [ofText_ok, read, readCompact_iff]
  · exact ofText_ok.mpr (read_render legible)

/-- A call inside a call. -/
def addsNext : Call :=
  ⟨"Add", [.var (.input 7), .call "Next" [.var (.work 2)]]⟩

/-- A derivation of it; the first index has leading zeros. -/
def addsNextPhrase : Phrase :=
  .call "Add".toList (by decide)
    [.var "x007".toList (.input 7) (.input (by decide) (by decide) (by decide)),
      .call "Next".toList (by decide) [.var "z2".toList (.work 2) (.work (by decide) (by decide) (by decide))]]

theorem addsNext_read_exactly : addsNext.toArgument.Legible ∧ ofText addsNext.render = .ok addsNext ∧
    ofText "( Add, x007, (Next, z2) )" = .ok addsNext := by
  have legible : addsNext.toArgument.Legible := by
    constructor
    · decide
    · decide
  refine ⟨legible, reading_exact.2.2 addsNext legible, (reading_exact.1 _ _).mpr ⟨addsNextPhrase, ?_, ?_⟩⟩
  · decide
  · decide

end Call

end CounterMachine
