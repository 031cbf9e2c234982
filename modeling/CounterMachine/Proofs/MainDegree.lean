import CounterMachine.Proofs.Acceptance
import CounterMachine.Proofs.Rounds
set_option autoImplicit false

/-!
# The degree of a program

The degree of a program counts the body of a function with the name of the main routine as 0. It is the
largest degree of the main instructions, and the number of rounds that leaves basic instructions only, where
the main routine reaches no function of its own name. A program that calls a namesake has a degree that is
too small.
-/

namespace CounterMachine

open Relation

/-- A function of the source calls another, by name. -/
def Source.Calls (source : Source) (caller callee : String) : Prop :=
  ∃ function ∈ source.functions, function.name = caller ∧
    ∃ instruction ∈ function.body, callee ∈ instruction.operation.calledNames

/-- No function of the source reaches itself. -/
def Source.Acyclic (source : Source) : Prop :=
  ∀ name, ¬TransGen source.Calls name name

/-- Functions that call none of those that call something do not reach themselves. -/
theorem Source.acyclic_of_leaves {source : Source}
    (leaves : ∀ {caller middle callee}, source.Calls caller middle → ¬source.Calls middle callee) :
    source.Acyclic := by
  intro name cycle
  obtain ⟨_, first, _⟩ := TransGen.head'_iff.mp cycle
  obtain ⟨_, _, last⟩ := TransGen.tail'_iff.mp cycle
  exact leaves last first

/-! ## Functions of a program -/

theorem Program.load_ok {source : Source} {program : Program} (loaded : load source = .ok program) :
    program.main = .ofDefinition source.program ∧
      Registry.resolve (.ofSource source) (.ofDefinition source.program) = .ok program.functions := by
  rw [load, link] at loaded
  cases linked : Registry.resolve (.ofSource source) (.ofDefinition source.program) with
  | error failure =>
      rw [linked] at loaded
      cases loaded
  | ok functions =>
      rw [linked] at loaded
      cases loaded
      exact ⟨rfl, rfl⟩

theorem Program.load_part {source : Source} {program : Program} (loaded : load source = .ok program)
    {name : String} {routine : Routine} (found : program.functions[name]? = some routine) :
    (Registry.ofSource source)[name]? = some routine :=
  Registry.resolve_part (load_ok loaded).2 found

theorem Program.load_functions {source : Source} {program : Program} (loaded : load source = .ok program)
    {name : String} {routine : Routine} (found : program.functions[name]? = some routine) :
    ∃ function ∈ source.functions, function.name = name ∧ routine = .ofDefinition function := by
  have present := load_part loaded found
  rw [Registry.getElem?_ofSource, Option.map_eq_some_iff] at present
  obtain ⟨function, latest, rfl⟩ := present
  have named := List.find?_some latest
  exact ⟨function, List.mem_reverse.mp (List.mem_of_find?_eq_some latest), of_decide_eq_true named, rfl⟩

theorem Program.calls_source {source : Source} {program : Program} (loaded : load source = .ok program)
    {caller callee : String} (calls : program.functions.Calls caller callee) :
    source.Calls caller callee := by
  obtain ⟨routine, found, called⟩ := calls
  obtain ⟨function, member, named, rfl⟩ := load_functions loaded found
  rw [Routine.mem_calledNames, Routine.instructions_ofDefinition] at called
  exact ⟨function, member, named, called⟩

/-! ## The degree of the main routine -/

/-- The routine's own name makes no difference for its degree if the routine does not reach it. -/
theorem Routine.degree_eq {routine : Routine} {registry : Registry}
    (unreached : ¬registry.Reached routine.calledNames routine.name) :
    routine.degree registry = degreeOf registry.bodyDegree routine.instructions :=
  degreeOf_congr fun callee called =>
    Registry.bodyDegree_erase fun path => unreached ⟨callee, called, path⟩

/-- The degree of a program is the largest degree of its current instructions, and that many rounds make it
basic if the names that they need are left, unless it reaches a function of its own name. -/
theorem Program.degree_exact (source : Source) (accepted : source.violations = [])
    (acyclic : source.Acyclic) :
    ∃ program, load source = .ok program ∧ ∀ actions : List Action,
      let current : Program := { program with main := program.main.after program.functions actions }
      ((∀ function ∈ source.functions, function.name ≠ source.program.name) ∨
        ¬current.functions.Reached current.main.calledNames source.program.name) →
      current.degree = degreeOf current.functions.bodyDegree current.main.instructions ∧
      ((∃ next, current.expand current.degree = .ok next ∧ next.main.isBasic = true) ∨
        (current.expand current.degree = .error .namesExhausted ∧
          ¬current.main.demand current.functions current.degree ≤ current.main.supply.free)) := by
  obtain ⟨program, loaded, sourceMain, wellFormed, resolved, fit⟩ := load_wellFormed accepted
  refine ⟨program, loaded, ?_⟩
  intro actions current distinct
  have becomes : source.program.Becomes (fun _ => True) current.main := by
    have after := source.program.becomes_after program.functions actions
    rwa [← sourceMain] at after
  obtain ⟨branches, draft, frontier⟩ := (Frontier.ofDefinition program.functions source.program).after actions
  rw [← sourceMain] at frontier
  have callsFit := (frontier.runnable wellFormed resolved fit).calls
  have grounded : current.functions.Grounded current.main.calledNames :=
    { fit := fun _ found => (wellFormed found).calls
      acyclic := fun _ cycle => acyclic _ (TransGen.mono (fun _ _ => calls_source loaded) _ _ cycle) }
  have unreached : ¬current.functions.Reached current.main.calledNames current.main.name := by
    rw [becomes.consistent.name]
    rcases distinct with distinct | unreached
    · intro reached
      have known := reached.known callsFit grounded.fit
      rw [← Std.ExtTreeMap.isSome_getElem?_iff_mem] at known
      obtain ⟨routine, found⟩ := Option.isSome_iff_exists.mp known
      obtain ⟨function, member, named, _⟩ := load_functions loaded found
      exact distinct function member named
    · exact unreached
  have degree : current.degree = degreeOf current.functions.bodyDegree current.main.instructions :=
    Routine.degree_eq unreached
  refine ⟨degree, ?_⟩
  rw [expand]
  rcases Routine.expandSelected_within grounded.expands (fun found => (wellFormed found).covered)
    (Routine.allows callsFit) current.degree (fun _ => true) with ⟨⟨next, expanded⟩, _⟩ | ⟨failed, short⟩
  · have basic := Routine.expand_isBasic becomes.consistent callsFit grounded expanded degree.ge
    refine .inl ⟨{ current with main := next }, ?_, basic⟩
    rw [Routine.expand, expanded]
    rfl
  · refine .inr ⟨?_, short⟩
    rw [Routine.expand, failed]
    rfl

def stackedSource : Source :=
  ⟨callsTwice, [nextDefinition, twiceDefinition]⟩

theorem stackedSource_acyclic : stackedSource.Acyclic := by
  have calls : ∀ {caller callee}, stackedSource.Calls caller callee → caller = "Twice" ∧ callee = "Next" := by
    rintro caller callee ⟨function, member, rfl, called⟩
    simp only [stackedSource, List.mem_cons, List.not_mem_nil, or_false] at member
    rcases member with rfl | rfl
    · simp [nextDefinition, Operation.calledNames, Operation.call?, Instruction.plain] at called
    · refine ⟨rfl, ?_⟩
      simpa [twiceDefinition, Operation.mem_calledNames, Operation.call?, Instruction.plain, Call.calls,
        Call.toArgument, Argument.calls, Argument.callsAll, eq_comm] using called
  refine Source.acyclic_of_leaves fun first second => ?_
  have differ := (calls first).2.symm.trans (calls second).1
  exact absurd differ (by decide)

theorem Program.stacked_degree_exact :
    stackedSource.violations = [] ∧ stackedSource.Acyclic ∧
    (∀ function ∈ stackedSource.functions, function.name ≠ stackedSource.program.name) ∧
    ∃ program, load stackedSource = .ok program ∧
      let current : Program := { program with main := program.main.after program.functions [.expand 1] }
      degreeOf current.functions.bodyDegree current.main.instructions = 4 ∧ current.degree = 4 ∧
      ∃ next, current.expand 4 = .ok next ∧ next.main.isBasic = true := by
  have accepted : stackedSource.violations = [] := by decide
  have distinct : ∀ function ∈ stackedSource.functions, function.name ≠ stackedSource.program.name := by
    decide
  have evaluated : (load stackedSource).toOption.map (fun program =>
      let current : Program := { program with main := program.main.after program.functions [.expand 1] }
      (degreeOf current.functions.bodyDegree current.main.instructions, (current.expand 4).isOk)) =
      some (4, true) := by
    decide +kernel
  obtain ⟨program, loaded, exactly⟩ := degree_exact stackedSource accepted stackedSource_acyclic
  rw [loaded] at evaluated
  obtain ⟨four, succeeds⟩ := Prod.mk.inj (Option.some.inj evaluated)
  obtain ⟨degree, outcome⟩ := exactly [.expand 1] (.inl distinct)
  rw [degree, four] at outcome
  refine ⟨accepted, stackedSource_acyclic, distinct, program, loaded, four, degree.trans four, ?_⟩
  rcases outcome with basic | ⟨failed, _⟩
  · exact basic
  · rw [failed] at succeeds
    cases succeeds

/-- A program that calls a function of its own name. -/
def namesakeSource : Source :=
  ⟨⟨"F", [.plain (.quote .result ⟨"F", [.var (.input 1)]⟩)]⟩,
    [⟨"F", [.plain (.jumpEqualConstant (.input 1) 1 .exit), .plain (.increase .result)]⟩]⟩

theorem namesakeSource_acyclic : namesakeSource.Acyclic := by
  refine Source.acyclic_of_leaves fun _ second => ?_
  obtain ⟨function, member, _, called⟩ := second
  simp only [namesakeSource, List.mem_cons, List.not_mem_nil, or_false] at member
  simp [member, Operation.calledNames, Operation.call?, Instruction.plain] at called

/-- The body of the namesake is counted as 0, and one round is missing. -/
theorem Program.namesake_degree_too_small :
    namesakeSource.violations = [] ∧ namesakeSource.Acyclic ∧
    ∃ program, load namesakeSource = .ok program ∧ program.degree = 3 ∧
      degreeOf program.functions.bodyDegree program.main.instructions = 4 ∧
      ∃ next, program.expand program.degree = .ok next ∧ next.main.isBasic = false := by
  have evaluated : (load namesakeSource).map (fun program =>
      (program.degree, degreeOf program.functions.bodyDegree program.main.instructions,
        (program.expand program.degree).map fun next => next.main.isBasic)) =
      .ok (3, 4, .ok false) := by
    decide +kernel
  refine ⟨by decide, namesakeSource_acyclic, ?_⟩
  cases loaded : load namesakeSource with
  | error failure =>
      rw [loaded] at evaluated
      cases evaluated
  | ok program =>
      rw [loaded] at evaluated
      obtain ⟨three, rest⟩ := Prod.mk.inj (Except.ok.inj evaluated)
      obtain ⟨four, expanded⟩ := Prod.mk.inj rest
      refine ⟨program, rfl, three, four, ?_⟩
      cases outcome : program.expand program.degree with
      | error failure =>
          rw [outcome] at expanded
          cases expanded
      | ok next =>
          rw [outcome] at expanded
          exact ⟨next, rfl, Except.ok.inj expanded⟩

end CounterMachine
