import CounterMachine.Proofs.Acceptance
import CounterMachine.Proofs.Exhaustion
import CounterMachine.Proofs.Stepping
set_option autoImplicit false

/-!
# Safety

The main routine of a source without violations never goes wrong, whatever is done to it: its jumps lead to
one place, its calls are answered by functions of the program, and it can be expanded as long as names are
left.
-/

namespace CounterMachine

/-! ## Calls -/

/-- Running a function of a registry does not fail. -/
def Registry.RunsSafely (registry : Registry) (run : Argument.Runner) : Prop :=
  ∀ (name : String) (callee : Routine) (arguments : List UInt64) (failure : Failure),
    registry[name]? = some callee → run callee arguments ≠ .failed failure

theorem Outcome.bind_failed {α β : Type} {outcome : Outcome α} {next : α → Outcome β}
    {failure : Failure} (failed : outcome.bind next = .failed failure) :
    outcome = .failed failure ∨ ∃ value, outcome = .done value ∧ next value = .failed failure := by
  cases outcome with
  | done value => exact .inr ⟨value, rfl, failed⟩
  | failed problem =>
      cases failed
      exact .inl rfl
  | unfinished => cases failed

namespace Argument

variable {registry : Registry} {run : Runner}

mutual

theorem evaluate_ne_failed (safe : registry.RunsSafely run) (values : Values) :
    (argument : Argument) →
    (∀ inner ∈ argument.calls, ∃ callee, registry[inner.function]? = some callee ∧
      callee.inputs.length = inner.arguments.length) →
    ∀ failure, argument.evaluate registry run values ≠ .failed failure
  | .var name, _, failure => nofun
  | .call function arguments, fits, failure => by
      obtain ⟨callee, found, arity⟩ := fits ⟨function, arguments⟩ (by rw [calls]; exact List.mem_cons_self)
      rw [evaluate]
      simp only [found, if_pos arity]
      intro failed
      rcases Outcome.bind_failed failed with inner | ⟨inputs, _, outer⟩
      · refine evaluateAll_ne_failed safe values arguments ?_ failure inner
        intro nested member
        exact fits nested (by rw [calls]; exact List.mem_cons_of_mem _ member)
      · rcases Outcome.bind_failed outer with ran | ⟨reply, _, impossible⟩
        · exact safe function callee inputs.1 failure found ran
        · cases impossible

theorem evaluateAll_ne_failed (safe : registry.RunsSafely run) (values : Values) :
    (arguments : List Argument) →
    (∀ inner ∈ callsAll arguments, ∃ callee, registry[inner.function]? = some callee ∧
      callee.inputs.length = inner.arguments.length) →
    ∀ failure, evaluateAll registry run values arguments ≠ .failed failure
  | [], _, failure => by
      rw [evaluateAll]
      exact nofun
  | argument :: rest, fits, failure => by
      rw [evaluateAll]
      intro failed
      rcases Outcome.bind_failed failed with first | ⟨reply, _, others⟩
      · refine evaluate_ne_failed safe values argument ?_ failure first
        intro nested member
        exact fits nested (by rw [callsAll]; exact List.mem_append_left _ member)
      · rcases Outcome.bind_failed others with later | ⟨inputs, _, impossible⟩
        · refine evaluateAll_ne_failed safe values rest ?_ failure later
          intro nested member
          exact fits nested (by rw [callsAll]; exact List.mem_append_right _ member)
        · cases impossible

end

end Argument

theorem Operation.execute_failed {invoke : Call → Outcome Reply} {values : Values}
    {operation : Operation} {failure : Failure}
    (failed : operation.execute invoke values = .failed failure) :
    ∃ call, operation.call? = some call ∧ invoke call = .failed failure := by
  rcases Outcome.bind_failed failed with applied | ⟨effect, _, impossible⟩
  · cases operation with
    | quote subject call | jumpEqualFunction subject call target =>
        rcases Outcome.bind_failed applied with invoked | ⟨reply, _, impossible⟩
        · exact ⟨call, rfl, invoked⟩
        · cases impossible
    | _ => cases applied
  · cases impossible

/-! ## Steps and runs -/

namespace Routine

variable {registry : Registry} {run : Argument.Runner} {routine : Routine}

theorem Runnable.stepWith_ne_failed (runnable : routine.Runnable registry)
    (safe : registry.RunsSafely run) (failure : Failure) :
    (routine.stepWith registry run).2 ≠ .failed failure := by
  have outcome := stepped registry run routine
  generalize routine.stepWith registry run = result at outcome
  cases outcome with
  | halted | past | unfinished | executed => exact nofun
  | @failed instruction problem going found tried =>
      obtain ⟨call, calls, invoked⟩ := Operation.execute_failed tried
      rw [runnable.instruction?_eq] at found
      have fits := runnable.calls instruction (List.mem_of_getElem? found) call calls
      exact (Argument.evaluate_ne_failed safe _ call.toArgument fits problem invoked).elim
  | @lost instruction effect problem going found tried led =>
      rw [runnable.instruction?_eq] at found
      obtain ⟨reply, applied, same, _⟩ := Operation.execute_done tried
      have flows := Operation.flow_of_apply applied
      rw [← same] at flows
      obtain ⟨next, leads⟩ := runnable.resolved.leads (List.mem_of_getElem? found) flows
      rw [runnable.destination_iff.mpr leads] at led
      cases led

theorem replyOf_ne_failed {finish : Routine → Routine × Outcome Unit} {callee : Routine}
    {arguments : List UInt64} {failure : Failure}
    (ends : (finish (callee.start arguments)).2 ≠ .failed failure) :
    replyOf finish callee arguments ≠ .failed failure := by
  rw [replyOf]
  cases ended : finish (callee.start arguments) with
  | mk last outcome =>
      rw [ended] at ends
      cases outcome with
      | done | unfinished => exact nofun
      | failed problem =>
          intro failed
          cases failed
          exact ends rfl

theorem Runnable.finish_ne_failed (wellFormed : registry.WellFormed)
    (runnable : routine.Runnable registry) (fuel : Nat) (failure : Failure) :
    (routine.finish registry fuel).2 ≠ .failed failure := by
  induction fuel generalizing routine failure with
  | zero => exact nofun
  | succ fuel ih =>
      have safe : registry.RunsSafely (replyOf (Routine.finish registry fuel)) := by
        intro name callee arguments problem found
        exact replyOf_ne_failed
          (ih ((wellFormed found).toRunnable.sameCode (.start callee arguments)) problem)
      have step := runnable.stepWith_ne_failed safe failure
      have same := SameCode.stepWith registry (replyOf (Routine.finish registry fuel)) routine
      rw [Routine.finish]
      cases stepped : routine.stepWith registry (replyOf (Routine.finish registry fuel)) with
      | mk next outcome =>
          rw [stepped] at step same
          rcases outcome with (⟨_, _⟩ | _) | problem | _
          · exact ih (runnable.sameCode same) failure
          · intro failed
            cases failed
          · intro failed
            cases failed
            exact step rfl
          · intro failed
            cases failed

theorem Runnable.step_ne_failed (wellFormed : registry.WellFormed)
    (runnable : routine.Runnable registry) (fuel : Nat) (failure : Failure) :
    (routine.step registry fuel).2 ≠ .failed failure := by
  refine runnable.stepWith_ne_failed ?_ failure
  intro name callee arguments problem found
  have started := (wellFormed found).toRunnable.sameCode (.start callee arguments)
  exact replyOf_ne_failed (started.finish_ne_failed wellFormed fuel problem)

theorem Runnable.run_ne_failed (wellFormed : registry.WellFormed)
    (runnable : routine.Runnable registry) (fuel : Nat) (arguments : List UInt64) (failure : Failure) :
    (routine.run registry fuel arguments).2 ≠ .failed failure := by
  have finished := (runnable.sameCode (.start routine arguments)).finish_ne_failed wellFormed fuel failure
  rw [Routine.run]
  cases ended : Routine.finish registry fuel (routine.start arguments) with
  | mk last outcome =>
      rw [ended] at finished
      cases outcome with
      | done | unfinished =>
          intro failed
          cases failed
      | failed problem =>
          intro failed
          cases failed
          exact finished rfl

end Routine

/-- A source without violations loads. Whatever is done to its main routine then, every named target is
attached to exactly one instruction and no named label is attached twice; expansion succeeds, of all
instructions or of one whose key is there, if and only if the names that it needs are left, as they are if the
last names, the names in use and the names that it needs do not come to 2³² (`Supply.le_free`); and neither a
step nor a run fails. -/
theorem Program.never_goes_wrong (source : Source) (accepted : source.violations = []) :
    ∃ program, Program.load source = .ok program ∧ ∀ actions : List Action,
      let main := program.main.after program.functions actions
      (∀ instruction ∈ main.instructions, ∀ target, instruction.target? = some target →
        target.isNamed = true →
        ∃! position : Nat, ∃ place, main.instructions[position]? = some place ∧ place.label = target) ∧
      (∀ (left right : Nat) (first second : Instruction), main.instructions[left]? = some first →
        main.instructions[right]? = some second → first.label = second.label →
        first.label.isNamed = true → left = right) ∧
      (∀ rounds,
        (main.demand program.functions rounds ≤ main.supply.free →
          ∃ next, main.expand program.functions rounds = .ok next) ∧
        (¬main.demand program.functions rounds ≤ main.supply.free →
          main.expand program.functions rounds = .error .namesExhausted)) ∧
      (∀ key rounds, (∃ node ∈ main.nodes, node.signature.matchesKey key = true) →
        (main.demandSingle program.functions key rounds ≤ main.supply.free →
          ∃ next, main.expandSingle program.functions key rounds = .ok next) ∧
        (¬main.demandSingle program.functions key rounds ≤ main.supply.free →
          main.expandSingle program.functions key rounds = .error .namesExhausted)) ∧
      (∀ fuel failure, (main.step program.functions fuel).2 ≠ .failed failure) ∧
      ∀ fuel arguments failure, (main.run program.functions fuel arguments).2 ≠ .failed failure := by
  obtain ⟨program, loaded, sourceMain, wellFormed, resolved, fit⟩ := Program.load_wellFormed accepted
  refine ⟨program, loaded, ?_⟩
  intro actions main
  obtain ⟨branches, draft, frontier⟩ :=
    (Frontier.ofDefinition program.functions source.program).after actions
  rw [← sourceMain] at frontier
  have runnable : main.Runnable program.functions := frontier.runnable wellFormed resolved fit
  have unique : ∀ (left right : Nat) (first second : Instruction), main.instructions[left]? = some first →
      main.instructions[right]? = some second → first.label = second.label →
      first.label.isNamed = true → left = right := fun _ _ _ _ atLeft atRight same named =>
    place_unique runnable.resolved.unique atLeft atRight same named
  refine ⟨?_, unique, ?_, ?_, runnable.step_ne_failed wellFormed, runnable.run_ne_failed wellFormed⟩
  · intro instruction member target jumps named
    obtain ⟨_, place, inCode, label⟩ := mem_attached.mp (runnable.resolved.defined member jumps named)
    obtain ⟨position, found⟩ := List.mem_iff_getElem?.mp inCode
    refine ⟨position, ⟨place, found, label⟩, ?_⟩
    intro other found
    obtain ⟨second, secondFound, secondLabel⟩ := found
    exact unique other position second place secondFound found (secondLabel.trans label.symm)
      (secondLabel ▸ named)
  · intro rounds
    exact Routine.expandSelected_safe wellFormed runnable.calls rounds _
  · intro key rounds known
    obtain ⟨node, member, matching⟩ := known
    have present : ∃ position, main.find key = .ok position := by
      rw [Routine.find]
      cases found : main.nodes.findIdx? fun node => node.signature.matchesKey key with
      | none =>
          have absent := List.findIdx?_eq_none_iff.mp found node member
          rw [matching] at absent
          cases absent
      | some position => exact ⟨position, rfl⟩
    obtain ⟨position, found⟩ := present
    rw [Routine.expandSingle, Routine.demandSingle, found]
    exact Routine.expandSelected_safe wellFormed runnable.calls rounds _

/-- An expanded program does not fail. The 17 labels and 11 work variables that three more rounds need are left,
and so are those that two more rounds of a single instruction need. -/
theorem Program.sample_never_goes_wrong :
    sampleSource.violations = [] ∧ ∃ program, Program.load sampleSource = .ok program ∧
      let main := program.main.after program.functions [.expand 1]
      (∃ next, main.expand program.functions 3 = .ok next) ∧
      (∃ next, main.expandSingle program.functions "0d4cad3bc775" 2 = .ok next) ∧
      ∀ fuel failure, (main.step program.functions fuel).2 ≠ .failed failure := by
  refine ⟨sampleSource_accepted, ?_⟩
  obtain ⟨program, loaded, safe⟩ := Program.never_goes_wrong sampleSource sampleSource_accepted
  have evaluated : (Program.load sampleSource).toOption.all (fun program =>
      let main := program.main.after program.functions [.expand 1]
      main.supply.names = ⟨2, 2⟩ && main.supply.labels.size = 2 && main.supply.vars.size = 4 &&
        main.demand program.functions 3 = ⟨17, 11⟩ &&
        main.demandSingle program.functions "0d4cad3bc775" 2 = ⟨5, 3⟩ &&
        main.nodes.any fun node => node.signature.matchesKey "0d4cad3bc775") = true := by
    decide +kernel
  rw [loaded] at evaluated
  simp only [Except.toOption, Option.all_some, Bool.and_eq_true, decide_eq_true_eq] at evaluated
  obtain ⟨⟨⟨⟨⟨names, labels⟩, vars⟩, all⟩, single⟩, known⟩ := evaluated
  obtain ⟨_, _, expands, expandsSingle, steps, _⟩ := safe [.expand 1]
  have room {quota : Quota} (few : quota.labels ≤ 17 ∧ quota.works ≤ 11) :
      quota ≤ (program.main.after program.functions [.expand 1]).supply.free := by
    refine Supply.le_free ?_ ?_
    · rw [names, labels]
      change 2 + 2 + quota.labels < 4294967296
      omega
    · rw [names, vars]
      change 2 + 4 + quota.works < 4294967296
      omega
  refine ⟨program, loaded, (expands 3).1 (room ?_), (expandsSingle _ 2 (List.any_eq_true.mp known)).1 (room ?_),
    steps⟩
  · rw [all]
    decide
  · rw [single]
    decide

end CounterMachine
