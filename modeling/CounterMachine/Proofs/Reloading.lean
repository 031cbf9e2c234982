import CounterMachine.Proofs.Adequacy
import CounterMachine.Proofs.Linking
import CounterMachine.Proofs.RoundTrip
set_option autoImplicit false

/-!
# Reloading expanded programs

Whatever was done to a main routine, its current instructions form a program that can be written down: every
variable that was drawn has an index above 0, and every jump has a target. The written program is read back
as it is, has no violations, declares the inputs of the source, and takes the steps of the routine it was
taken from.
-/

namespace CounterMachine

open Inlining

/-! ## Names that can be written down -/

theorem Names.nextFree?_ne_zero {taken : UInt32 → Bool} {tries : Nat} {last index : UInt32}
    (found : nextFree? taken tries last = some index) : index ≠ 0 := by
  rintro rfl
  exact UInt32.not_lt_zero (nextFree?_least found).1

namespace Fresh

/-- Every variable that a computation draws can be written down. -/
def Legible {α : Type} (computation : Fresh α) : Prop :=
  ∀ {supply value next}, computation supply = .ok (value, next) →
    ∀ name ∈ next.vars, name ∈ supply.vars ∨ name.Legible

theorem composed_legible : Composed fun {α} _ => @Legible α where
  pure := by
    intro α value supply result next returned name member
    obtain ⟨_, rfl⟩ := pure_ok returned
    exact .inl member
  bind := by
    intro α β own rest first second legible later supply value next returned name member
    obtain ⟨middle, between, ran, returned⟩ := bind_ok returned
    rcases later middle returned name member with before | written
    · exact legible ran name before
    · exact .inr written
  label := by
    intro supply drawn next returned name member
    obtain ⟨index, _, _, rfl⟩ := label_eq_ok.mp returned
    exact .inl member
  work := by
    intro supply drawn next returned name member
    obtain ⟨index, found, _, rfl⟩ := work_eq_ok.mp returned
    rw [Std.ExtTreeSet.mem_insert, Std.LawfulEqCmp.compare_eq_iff_eq] at member
    rcases member with rfl | before
    · exact .inr (.inr (Names.nextFree?_ne_zero found))
    · exact .inl before

end Fresh

theorem Supply.Draws.legible {supply next : Supply} {draft : Draft} (draws : supply.Draws draft next)
    (written : ∀ name ∈ next.vars, name ∈ supply.vars ∨ name.Legible) :
    ∀ name ∈ draft.works, name.Legible := by
  intro name drawn
  have inNames := Draft.var_mem_names.mpr drawn
  have taken : .var name ∈ next.taken := by
    rw [draws.taken]
    exact .inr inNames
  rcases written name taken with before | legible
  · exact (draws.avoids.unused (.var name) inNames before).elim
  · exact legible

/-! ## Legible code -/

/-- The functions of a registry, and their names, can be written down. -/
structure Registry.Legible (registry : Registry) : Prop where
  names : ∀ {name : String} {routine : Routine}, registry[name]? = some routine →
    isFunctionName name.toList = true
  bodies : ∀ {name : String} {routine : Routine}, registry[name]? = some routine →
    ∀ instruction ∈ routine.instructions, instruction.operation.Legible

theorem Program.legible_of_load {source : Source} {program : Program} (loaded : load source = .ok program)
    (legible : source.Legible) : program.functions.Legible where
  names := by
    intro name routine found
    obtain ⟨function, member, rfl, rfl⟩ := load_functions loaded found
    exact (legible function (List.mem_cons_of_mem _ member)).name
  bodies := by
    intro name routine found
    obtain ⟨function, member, rfl, rfl⟩ := load_functions loaded found
    rw [Routine.instructions_ofDefinition]
    exact (legible function (List.mem_cons_of_mem _ member)).body

/-- The copy of a jump has a target, `EXIT` included, if the jump has one. -/
theorem Inlining.Frame.copyOf_target_nonempty {frame : Frame} {callee : Routine} (fits : frame.Fits callee)
    (named : ∀ label ∈ frame.draft.labels, label.isNamed = true) {instruction : Instruction}
    (member : instruction ∈ callee.instructions) (target : instruction.operation.target? ≠ some .empty) :
    (frame.copyOf callee instruction).operation.target? ≠ some .empty := by
  rw [target?_copyOf, Ne, Option.map_eq_some_iff]
  rintro ⟨source, jumps, empty⟩
  cases source with
  | empty => exact target jumps
  | exit =>
      rw [renameLabel_of_not_named rfl, redirect, if_pos rfl] at empty
      cases leaves : frame.leave with
      | none =>
          rw [leaves] at empty
          cases empty
      | some leave =>
          rw [leaves, Option.getD_some] at empty
          cases empty ▸ named leave (by simp [draft, leaves])
  | named index =>
      have place := renameLabel_mem fits (mem_localLabels.mpr (target_mem_names member jumps rfl))
      have isNamed := named _ (List.mem_append_left _ place)
      rw [redirect_of_named isNamed] at empty
      cases empty ▸ isNamed

namespace Operation.StandsFor

variable {registry : Registry} {operation : Operation} {draft : Draft} {body : List Instruction}

/-- No jump of a block lacks a target. -/
theorem target_nonempty (stands : operation.StandsFor registry draft body) (functions : registry.Legible)
    (named : ∀ label ∈ draft.labels, label.isNamed = true) (target : operation.target? ≠ some .empty) :
    ∀ instruction ∈ body, instruction.operation.target? ≠ some .empty := by
  cases stands with
  | composition subject call use callee frame composed found arity fits =>
      subst composed
      intro instruction member
      rcases Frame.mem_block.mp member with rfl | ⟨cleared, inFrame, rfl⟩ |
        ⟨slot, argument, paired, rfl⟩ | ⟨original, inBody, rfl⟩ | rfl
      · exact nofun
      · exact nofun
      · cases argument <;> exact nofun
      · exact Frame.copyOf_target_nonempty fits named inBody (functions.bodies found original inBody).target
      · cases use <;> exact target
  | _ =>
      have nonempty : ∀ {label : Label}, label.isNamed = true → label ≠ .empty := by
        rintro _ isNamed rfl
        cases isNamed
      simp_all [target?, Block.zero, Block.goto, Block.constant, Block.copy, Block.jumpIfZero,
        Block.jumpIfConstant, Block.jumpIfEqual, Instruction.plain, Instruction.labeled, or_imp,
        forall_and]

theorem legible (stands : operation.StandsFor registry draft body) (wellFormed : registry.WellFormed)
    (functions : registry.Legible) (named : ∀ label ∈ draft.labels, label.isNamed = true)
    (works : ∀ name ∈ draft.works, name.Legible) (written : operation.Legible)
    (fits : ∀ call, operation.call? = some call → call.Fits registry) :
    ∀ instruction ∈ body, instruction.operation.Legible := by
  intro instruction member
  constructor
  · intro name occurs
    rcases (stands.vars_block fun found => (wellFormed found).covered).mp ⟨instruction, member, occurs⟩
      with own | drawn
    · exact written.vars name own
    · exact works name drawn
  · intro call calls inner nested
    obtain ⟨callee, found, _⟩ := stands.calls_fit (fun _ found => (wellFormed found).calls)
      (fun {call} => fits call) instruction member call calls inner nested
    exact functions.names found
  · exact stands.target_nonempty functions named written.target instruction member

end Operation.StandsFor

/-- Trees of legible instructions have legible leaves. -/
theorem Drawn.legible {registry : Registry} {trees : List Derivation} {draft : Draft}
    (drawn : Drawn registry trees draft) (wellFormed : registry.WellFormed)
    (functions : registry.Legible)
    (written : ∀ instruction ∈ trees.map Derivation.instruction, instruction.operation.Legible)
    (fit : CallsFit registry (trees.map Derivation.instruction)) :
    ∀ instruction ∈ trees.flatMap Derivation.code, instruction.operation.Legible := by
  induction drawn with
  | nil => simp
  | leaf others ih =>
      simp only [List.map_cons, List.forall_mem_cons, CallsFit, List.flatMap_cons, Derivation.code,
        Derivation.instruction, List.singleton_append] at written fit ⊢
      exact ⟨written.1, ih written.2 fit.2⟩
  | @node _ _ _ _ _ body _ _ synthetic expanded _ complete _ ih =>
      simp only [List.map_cons, List.forall_mem_cons, CallsFit, Derivation.instruction] at written fit
      -- The draft that is recorded for a node may differ from the names that were drawn for its block.
      obtain ⟨own, stands, draws⟩ := Operation.expansion_ok synthetic expanded
      have works := draws.legible
        (Fresh.composed_legible.expansion (fun call calls => (fit.1 call calls).callee) expanded)
      have block : ∀ inner ∈ body, inner.operation.Legible :=
        stands.legible wellFormed functions draws.avoids.named works written.1 fit.1
      have calls : CallsFit registry body :=
        stands.calls_fit (fun _ found => (wellFormed found).calls) (fun {call} => fit.1 call)
      rw [List.flatMap_cons, Derivation.code, ← List.flatMap_append]
      apply ih
      · rw [List.map_append, complete, List.forall_mem_append]
        exact ⟨forall_mem_labelFirst block, written.2⟩
      · rw [List.map_append, complete, CallsFit, List.forall_mem_append]
        exact ⟨forall_mem_labelFirst (P := fun operation => ∀ call, operation.call? = some call →
          call.Fits registry) calls, fit.2⟩

namespace Frontier

variable {registry : Registry} {definition : Definition} {routine : Routine}
  {branches : List Branch} {draft : Draft}

theorem legible (frontier : Frontier registry definition routine branches draft)
    (wellFormed : registry.WellFormed) (functions : registry.Legible)
    (written : ∀ instruction ∈ definition.body, instruction.operation.Legible)
    (fit : CallsFit registry definition.body) :
    ∀ instruction ∈ routine.instructions, instruction.operation.Legible := by
  rw [frontier.instructions]
  refine frontier.drawn.legible wellFormed functions ?_ ?_
  · rwa [frontier.map_instruction]
  · rwa [frontier.map_instruction]

theorem nonempty (frontier : Frontier registry definition routine branches draft)
    (wellFormed : registry.WellFormed) (nonempty : definition.body ≠ []) : routine.instructions ≠ [] := by
  refine Unfolding.preserves (P := (· ≠ [])) ?_ (frontier.unfolding wellFormed) nonempty
  intro before rest body instruction draft stands _ _
  obtain ⟨first, others, rfl⟩ := stands.starts
  simp [labelFirst]

end Frontier

/-! ## Variables of the copy -/

theorem Routine.toDefinition_ofDefinition (definition : Definition) :
    (Routine.ofDefinition definition).toDefinition = definition := by
  rw [toDefinition, instructions_ofDefinition]
  rfl

namespace Frontier

variable {registry : Registry} {definition : Definition} {routine : Routine}
  {branches : List Branch} {draft : Draft}

theorem vars_toDefinition (frontier : Frontier registry definition routine branches draft)
    (wellFormed : registry.WellFormed) : routine.toDefinition.vars = routine.varsInUse := by
  apply Std.ExtTreeSet.ext_mem
  intro name
  have current : name ∈ routine.instructions.flatMap Instruction.vars ↔
      .var name ∈ namesIn routine.instructions := by
    simp only [List.mem_flatMap, mem_namesIn, Instruction.var_mem_names, Instruction.vars]
  rw [Routine.varsInUse, frontier.sourceVars, Std.ExtTreeSet.mem_insertMany_list, List.contains_iff_mem,
    current, Definition.mem_vars, Definition.mem_vars, Routine.toDefinition, frontier.names wellFormed]
  simp only [Set.mem_union]
  tauto

theorem inputs_toDefinition (frontier : Frontier registry definition routine branches draft)
    (wellFormed : registry.WellFormed) : routine.toDefinition.inputs = definition.inputs := by
  rw [Definition.inputs, Definition.inputs, ← Std.ExtTreeSet.toList_filter, ← Std.ExtTreeSet.toList_filter]
  congr 1
  apply Std.ExtTreeSet.ext_mem
  intro name
  simp only [Std.ExtTreeSet.mem_filter, Std.ExtTreeSet.get_eq, exists_prop, Definition.mem_vars,
    Routine.toDefinition, frontier.names wellFormed, Set.mem_union, Set.mem_ofPred_eq, Draft.var_mem_names]
  -- Whatever was drawn is a work variable, so the inputs are those of the source.
  refine and_congr_left fun input => ?_
  have drawn : name ∉ draft.works := by
    intro member
    have work := (frontier.avoids wellFormed).work name member
    cases name with
    | result | input => cases work
    | work => cases input
  simp only [drawn, or_false]

/-- The copy of a routine starts as the routine does. -/
theorem alike_copy (frontier : Frontier registry definition routine branches draft)
    (wellFormed : registry.WellFormed) {other : Registry} (otherWellFormed : other.WellFormed)
    (runnable : routine.Runnable registry) (fit : CallsFit other routine.instructions)
    (arguments : List UInt64) :
    Routine.Alike registry other (routine.start arguments)
      ((Routine.ofDefinition routine.toDefinition).start arguments) := by
  have copy := Frontier.ofDefinition other routine.toDefinition
  have code := Routine.instructions_ofDefinition routine.toDefinition
  have vars : (Routine.ofDefinition routine.toDefinition).varsInUse = routine.varsInUse := by
    rw [← copy.vars_toDefinition otherWellFormed, Routine.toDefinition_ofDefinition,
      frontier.vars_toDefinition wellFormed]
  have inputs : (Routine.ofDefinition routine.toDefinition).inputs = routine.inputs := by
    rw [copy.inputs, frontier.inputs_toDefinition wellFormed, frontier.inputs]
  have labels : (Routine.ofDefinition routine.toDefinition).state.labels = routine.state.labels := by
    rw [copy.labels, frontier.labels, Routine.labelPositions, Routine.labelPositions, code]
    rfl
  constructor
  · exact runnable.sameCode (.start routine arguments)
  · exact (Routine.wellFormed_ofDefinition runnable.resolved fit).toRunnable.sameCode (.start _ arguments)
  · exact code
  · rw [Routine.start, Routine.start, vars, inputs, State.seed, State.seed, labels]

end Frontier

/-- Expanded programs reload. Whatever was done to the main routine of an accepted source that was read from
some text, its current instructions and the functions of the source form a source that is read back from its
own listing and accepted, and that declares the same inputs in the same order. Loaded and started on any
arguments, it takes the same steps as the routine it was taken from, with the same snapshots. -/
theorem Program.expanded_source_reloads (text : String) (source : Source)
    (assembled : Source.assemble text = .ok source) (accepted : source.violations = []) :
    ∃ program, load source = .ok program ∧ ∀ actions : List Action,
      let main := program.main.after program.functions actions
      let copy : Source := ⟨main.toDefinition, source.functions⟩
      Source.assemble copy.listing = .ok copy ∧ copy.violations = [] ∧
        copy.program.inputs = source.program.inputs ∧
        ∃ reloaded, load copy = .ok reloaded ∧ ∀ (arguments : List UInt64) (fuel count : Nat),
          let live := (main.start arguments).steps program.functions fuel count #[]
          let again := (reloaded.main.start arguments).steps reloaded.functions fuel count #[]
          again.2 = live.2 ∧ again.1.state.history = live.1.state.history ∧
            again.1.state = { live.1.state with names := again.1.state.names } := by
  have legible := Source.legible_of_assemble assembled
  obtain ⟨program, loaded, main, wellFormed, resolved, fit⟩ := load_wellFormed accepted
  have functions := legible_of_load loaded legible
  refine ⟨program, loaded, fun actions => ?_⟩
  rw [main]
  obtain ⟨branches, draft, frontier⟩ :=
    (Frontier.ofDefinition program.functions source.program).after actions
  have name := (source.program.becomes_after program.functions actions).consistent.name
  generalize (Routine.ofDefinition source.program).after program.functions actions = current
    at frontier name ⊢
  have runnable := frontier.runnable wellFormed resolved fit
  have copyLegible : Source.Legible ⟨current.toDefinition, source.functions⟩ := by
    rw [Source.Legible, Source.definitions, List.forall_mem_cons] at legible ⊢
    refine ⟨⟨?_, frontier.legible wellFormed functions legible.1.body fit⟩, legible.2⟩
    rw [Routine.toDefinition, name]
    exact legible.1.name
  have copyAccepted : Source.violations ⟨current.toDefinition, source.functions⟩ = [] := by
    refine Source.accepted_of_program accepted ?_ runnable.resolved ?_
    · exact frontier.nonempty wellFormed (Source.body_ne_nil accepted)
    · exact runnable.calls.mono (load_part loaded)
  obtain ⟨reloaded, alsoLoaded, alsoMain, alsoWellFormed, _, alsoFit⟩ := load_wellFormed copyAccepted
  refine ⟨Source.assemble_listing copyLegible, copyAccepted, frontier.inputs_toDefinition wellFormed,
    reloaded, alsoLoaded, fun arguments fuel count => ?_⟩
  have agree := agree_of_load loaded wellFormed alsoLoaded alsoWellFormed rfl
  have alike := frontier.alike_copy wellFormed alsoWellFormed runnable alsoFit arguments
  rw [alsoMain]
  obtain ⟨outcomes, ended⟩ := alike.steps agree fuel count #[]
  exact ⟨outcomes, by rw [ended.state], ended.state⟩

theorem Program.sample_source_reloads :
    Source.assemble sampleSource.listing = .ok sampleSource ∧ sampleSource.violations = [] ∧
    ∃ program, load sampleSource = .ok program ∧
      let main := program.main.after program.functions [.expand 2, .reset, .restoreVars]
      let copy : Source := ⟨main.toDefinition, sampleSource.functions⟩
      Source.assemble copy.listing = .ok copy ∧ copy.violations = [] ∧
        copy.program.inputs = [.input 1] ∧
        ∃ reloaded, load copy = .ok reloaded ∧ ∀ fuel count : Nat,
          ((reloaded.main.start [5]).steps reloaded.functions fuel count #[]).1.state.history =
            ((main.start [5]).steps program.functions fuel count #[]).1.state.history := by
  have assembled : Source.assemble sampleSource.listing = .ok sampleSource :=
    Source.assemble_listing (by decide)
  refine ⟨assembled, sampleSource_accepted, ?_⟩
  obtain ⟨program, loaded, reloads⟩ :=
    Program.expanded_source_reloads sampleSource.listing sampleSource assembled sampleSource_accepted
  obtain ⟨written, accepted, inputs, reloaded, alsoLoaded, runs⟩ :=
    reloads [.expand 2, .reset, .restoreVars]
  have declared : sampleSource.program.inputs = [.input 1] := by decide
  exact ⟨program, loaded, written, accepted, inputs.trans declared, reloaded, alsoLoaded,
    fun fuel count => (runs [5] fuel count).2.1⟩

end CounterMachine
