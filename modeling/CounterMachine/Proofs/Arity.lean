import CounterMachine.Proofs.MainDegree
set_option autoImplicit false

/-!
# Calls with a wrong number of arguments

Expansion meets every call sooner or later: a call in the arguments of another one in the round after it, and
the calls of a function in the round after the function was called. The degree is large enough for all of
them, and the copies of a call pass as many arguments as the call. So, as long as names are left, full expansion
fails exactly if some call does not fit, and then it names such a call.
-/

namespace CounterMachine

open Inlining Relation

/-! ## Calls that occur -/

/-- A call that some instructions make, maybe inside the arguments of another call. -/
def Occurs (code : List Instruction) (call : Call) : Prop :=
  ∃ instruction ∈ code, ∃ outer, instruction.operation.call? = some outer ∧ call ∈ outer.calls

/-- A call of a known function, with exactly as many arguments as the function has inputs. -/
def Call.Suits (registry : Registry) (call : Call) : Prop :=
  ∃ callee, registry[call.function]? = some callee ∧ callee.inputs.length = call.arguments.length

/-- A call that a routine or a function that it reaches makes. -/
def Registry.Occurring (registry : Registry) (routine : Routine) (call : Call) : Prop :=
  Occurs routine.instructions call ∨
    ∃ name callee, registry.Reached routine.calledNames name ∧ registry[name]? = some callee ∧
      Occurs callee.instructions call

theorem CallsFit.suits {registry : Registry} {code : List Instruction} (fit : CallsFit registry code)
    {call : Call} (occurs : Occurs code call) : call.Suits registry := by
  obtain ⟨instruction, member, outer, calls, nested⟩ := occurs
  exact fit instruction member outer calls call nested

theorem Call.fits_mapVars {registry : Registry} {rename : Variable → Variable} {call : Call}
    (fits : (call.mapVars rename).Fits registry) : call.Fits registry := by
  intro inner nested
  have copied : inner.mapVars rename ∈ (call.mapVars rename).calls := by
    rw [Call.calls_mapVars]
    exact List.mem_map_of_mem nested
  obtain ⟨callee, found, arity⟩ := fits _ copied
  exact ⟨callee, found, by simpa [Call.mapVars, Argument.mapVarsAll_eq_map] using arity⟩

theorem Inlining.Frame.mem_calledNames_copyOf {frame : Frame} {callee : Routine} {instruction : Instruction}
    {name : String} (called : name ∈ instruction.operation.calledNames) :
    name ∈ (frame.copyOf callee instruction).operation.calledNames := by
  obtain ⟨call, calls, inner, nested, rfl⟩ := Operation.mem_calledNames.mp called
  refine Operation.mem_calledNames.mpr
    ⟨call.mapVars (frame.renameVar callee), ?_, inner.mapVars (frame.renameVar callee), ?_, rfl⟩
  · rw [call?_copyOf, calls, Option.map_some]
  · rw [Call.calls_mapVars]
    exact List.mem_map_of_mem nested

/-! ## Success -/

/-- The calls of an operation, and those of every function that it reaches, fit. -/
structure Registry.Sound (registry : Registry) (operation : Operation) : Prop where
  own : ∀ call, operation.call? = some call → call.Fits registry
  bodies : ∀ {name : String} {callee : Routine}, registry.Reached operation.calledNames name →
    registry[name]? = some callee → CallsFit registry callee.instructions

variable {registry : Registry}

theorem Registry.sound_of_no_call {operation : Operation} (none : operation.call? = none) :
    registry.Sound operation where
  own := by
    intro call calls
    rw [none] at calls
    cases calls
  bodies := by
    rintro name callee ⟨first, member, _⟩
    obtain ⟨call, calls, _⟩ := Operation.mem_calledNames.mp member
    rw [none] at calls
    cases calls

/-- An operation is sound if the block that it stands for is: the block has the calls in the arguments of a
composition and those of its function, and its function was found. -/
theorem Operation.StandsFor.sound {operation : Operation} {draft : Draft} {block : List Instruction}
    (stands : operation.StandsFor registry draft block)
    (each : ∀ instruction ∈ block, registry.Sound instruction.operation) : registry.Sound operation := by
  cases stands with
  | composition subject call use callee frame composed found arity fits =>
      have own : operation.call? = some call := by
        subst composed
        cases use <;> rfl
      have copied : ∀ original ∈ callee.instructions,
          registry.Sound (frame.copyOf callee original).operation := fun original inBody =>
        each _ (Frame.mem_block.mpr (.inr (.inr (.inr (.inl ⟨original, inBody, rfl⟩)))))
      have bound : ∀ inner ∈ Argument.callsAll call.arguments, ∃ slot outer, inner ∈ outer.calls ∧
          registry.Sound (.quote slot outer) := by
        intro inner nested
        rw [Argument.callsAll_eq_flatMap, List.mem_flatMap] at nested
        obtain ⟨argument, inArguments, nested⟩ := nested
        rw [← List.map_snd_zip (fits.slots.trans arity).ge, List.mem_map] at inArguments
        obtain ⟨⟨slot, argument⟩, paired, rfl⟩ := inArguments
        have sound := each _ (Frame.mem_block.mpr (.inr (.inr (.inl ⟨slot, argument, paired, rfl⟩))))
        cases argument with
        | var name =>
            rw [Argument.calls] at nested
            cases nested
        | call function arguments => exact ⟨slot, ⟨function, arguments⟩, nested, sound⟩
      constructor
      · intro other calls inner nested
        obtain rfl := Option.some.inj (own.symm.trans calls)
        rcases List.mem_cons.mp nested with rfl | nested
        · exact ⟨callee, found, arity⟩
        · obtain ⟨slot, outer, inOuter, sound⟩ := bound inner nested
          exact sound.own outer rfl inner inOuter
      · rintro name function ⟨first, member, path⟩ functionFound
        obtain ⟨other, calls, inner, nested, rfl⟩ := Operation.mem_calledNames.mp member
        obtain rfl := Option.some.inj (own.symm.trans calls)
        rcases List.mem_cons.mp nested with rfl | nested
        · rcases path.cases_head with rfl | ⟨next, ⟨origin, originFound, called⟩, rest⟩
          · obtain rfl := Option.some.inj (found.symm.trans functionFound)
            intro original inBody source calls
            refine Call.fits_mapVars ((copied original inBody).own
              (source.mapVars (frame.renameVar callee)) ?_)
            rw [Frame.call?_copyOf, calls, Option.map_some]
          · obtain rfl := Option.some.inj (found.symm.trans originFound)
            obtain ⟨original, inBody, called⟩ := Routine.mem_calledNames.mp called
            exact (copied original inBody).bodies
              ⟨next, Frame.mem_calledNames_copyOf called, rest⟩ functionFound
        · obtain ⟨slot, outer, inOuter, sound⟩ := bound inner nested
          have called : inner.function ∈ (Operation.quote slot outer).calledNames :=
            Operation.mem_calledNames.mpr ⟨outer, rfl, inner, inOuter, rfl⟩
          exact sound.bodies ⟨inner.function, called, path⟩ functionFound
  | _ => exact Registry.sound_of_no_call rfl

/-- An instruction that was expanded for as many rounds as its degree is sound. -/
theorem Instruction.sound_of_derive (acyclic : ∀ name, ¬TransGen registry.Calls name name) {rounds : Nat}
    {instruction : Instruction} {supply next : Supply} {tree : Derivation}
    (derived : instruction.derive registry rounds supply = .ok (tree, next))
    (enough : registry.instructionDegree instruction ≤ rounds) : registry.Sound instruction.operation := by
  induction rounds generalizing instruction supply tree next with
  | zero =>
      have basic : instruction.isBasic = true := isBasic_iff.mpr (Nat.le_zero.mp enough)
      exact Registry.sound_of_no_call (call?_of_basic basic)
  | succ rounds ih =>
      cases basic : instruction.isBasic with
      | true => exact Registry.sound_of_no_call (call?_of_basic basic)
      | false =>
          obtain ⟨draft, block, middle, children, stands, _, _, ran⟩ := derive_succ basic derived
          have smaller : degreeOf registry.bodyDegree block + 1 ≤ registry.instructionDegree instruction :=
            (stands.degreeOf_block fun _ found => Registry.degreeOf_bodyDegree found (acyclic _)).1
          refine stands.sound fun original inBody => ?_
          obtain ⟨child, inBlock, same⟩ := (exists_mem_labelFirst instruction.label block
            fun operation => operation = original.operation).mpr ⟨original, inBody, rfl⟩
          obtain ⟨childTree, _, before, after, _, childDerived⟩ :=
            (Fresh.mapM_each derive_grows ran).2 child inBlock
          have bound : original.operation.degree registry.bodyDegree ≤ degreeOf registry.bodyDegree block :=
            degree_le_degreeOf inBody
          rw [← same] at bound ⊢
          exact ih childDerived (by rw [Registry.instructionDegree]; omega)

/-- The calls of a routine that was fully expanded fit, and so do those of all functions that it reaches. -/
theorem Routine.suits_of_expand {definition : Definition} {routine next : Routine}
    (consistent : routine.Consistent definition) (acyclic : ∀ name, ¬TransGen registry.Calls name name)
    (expanded : routine.expand registry (degreeOf registry.bodyDegree routine.instructions) = .ok next)
    {call : Call} (occurring : registry.Occurring routine call) : call.Suits registry := by
  have sound : ∀ instruction ∈ routine.instructions, registry.Sound instruction.operation := by
    intro instruction member
    obtain ⟨before, after, tree, _, derived, _⟩ := (expand_leaves consistent expanded).2 instruction member
    exact Instruction.sound_of_derive acyclic derived (degree_le_degreeOf member)
  rcases occurring with ⟨instruction, member, outer, calls, nested⟩ |
    ⟨name, callee, ⟨first, called, path⟩, found, occurs⟩
  · exact (sound instruction member).own outer calls call nested
  · obtain ⟨instruction, member, called⟩ := mem_calledNames.mp called
    exact ((sound instruction member).bodies ⟨first, called, path⟩ found).suits occurs

/-! ## Failure -/

/-- A failure that names a call that occurs and does not fit. -/
def Registry.Misfit (registry : Registry) (routine : Routine) (failure : Failure) : Prop :=
  ∃ call callee, registry.Occurring routine call ∧ registry[call.function]? = some callee ∧
    callee.inputs.length ≠ call.arguments.length ∧
    failure = .argumentCount call.function callee.inputs.length call.arguments.length

/-- Every call of an operation stands for one that occurs: it calls the same function with as many
arguments. -/
def Registry.Traced (registry : Registry) (routine : Routine) (operation : Operation) : Prop :=
  ∀ outer, operation.call? = some outer → ∀ inner ∈ outer.calls, ∃ original,
    registry.Occurring routine original ∧ inner.function = original.function ∧
      inner.arguments.length = original.arguments.length

theorem Registry.Occurring.reached {routine : Routine} {call : Call}
    (occurring : registry.Occurring routine call) : registry.Reached routine.calledNames call.function := by
  rcases occurring with ⟨instruction, member, outer, calls, nested⟩ |
    ⟨name, callee, reached, found, instruction, member, outer, calls, nested⟩
  · have called := Operation.mem_calledNames.mpr ⟨outer, calls, call, nested, rfl⟩
    exact ⟨call.function, Routine.mem_calledNames.mpr ⟨instruction, member, called⟩, .refl⟩
  · have called := Operation.mem_calledNames.mpr ⟨outer, calls, call, nested, rfl⟩
    exact reached.calls ⟨callee, found, Routine.mem_calledNames.mpr ⟨instruction, member, called⟩⟩

theorem Registry.Traced.block {routine : Routine} {operation : Operation} {draft : Draft}
    {block : List Instruction} (traced : registry.Traced routine operation)
    (stands : operation.StandsFor registry draft block) :
    ∀ instruction ∈ block, registry.Traced routine instruction.operation := by
  intro instruction member call calls inner nested
  obtain ⟨outer, own, inOuter | ⟨callee, found, original, inBody, source, inSource, called, inCalled, name,
    length⟩⟩ := stands.calls_origin instruction member call calls inner nested
  · exact traced outer own inner inOuter
  · obtain ⟨caller, occurring, same, _⟩ := traced outer own outer List.mem_cons_self
    have reached : registry.Reached routine.calledNames outer.function := same ▸ occurring.reached
    exact ⟨called, .inr ⟨outer.function, callee, reached, found, original, inBody, source, inSource, inCalled⟩,
      name, length⟩

theorem Inlining.inline_takes_or_misfits {allowed : Failure → Prop} {call : Call} {callee : Routine}
    (found : registry[call.function]? = some callee)
    (misfits : callee.inputs.length ≠ call.arguments.length →
      allowed (.argumentCount call.function callee.inputs.length call.arguments.length))
    (subject : Variable) (use : Use) (supply : Supply) :
    Fresh.Takes allowed (frameDemand callee) supply (inline registry subject call use) := by
  by_cases arity : callee.inputs.length = call.arguments.length
  · exact (Fresh.Takes.composed allowed).inline found arity subject use supply
  · unfold inline
    simp only [found, if_neg arity]
    constructor
    · exact nofun
    · intro failure failed
      cases failed
      exact .inl (misfits arity)

/-- One round of expansion can fail only for a call that occurs and does not fit, or for want of names, if the
functions that are reached are known. -/
theorem Registry.Traced.takes {routine : Routine} {operation : Operation}
    (traced : registry.Traced routine operation)
    (known : ∀ name, registry.Reached routine.calledNames name → name ∈ registry) (supply : Supply) :
    Fresh.Takes (registry.Misfit routine) (operation.demand registry 1) supply
      (operation.expansion registry) := by
  have composition {call : Call} (calls : operation.call? = some call) (subject : Variable) (use : Use) :
      Fresh.Takes (registry.Misfit routine) ((use.composition subject call).demand registry 1) supply
        (inline registry subject call use) := by
    obtain ⟨original, occurring, name, length⟩ := traced call calls call List.mem_cons_self
    obtain ⟨callee, found⟩ := mem_iff_exists.mp (known _ occurring.reached)
    have same : registry[call.function]? = some callee := name ▸ found
    rw [Operation.demand_one_composition same]
    refine inline_takes_or_misfits same (fun misfits => ?_) subject use supply
    rw [length] at misfits
    exact ⟨original, callee, occurring, found, misfits, by rw [name, length]⟩
  cases operation with
  | quote subject call => exact composition rfl subject .assign
  | jumpEqualFunction subject call target => exact composition rfl subject (.compare target)
  | _ =>
      refine (Fresh.Takes.composed _).expansion ?_ supply
      exact nofun

theorem Routine.traced {routine : Routine} :
    ∀ instruction ∈ routine.instructions, registry.Traced routine instruction.operation := by
  intro instruction member outer calls inner nested
  exact ⟨inner, .inl ⟨instruction, member, outer, calls, nested⟩, rfl, rfl⟩

/-- An expansion succeeds, or it names a call that does not fit, or its names are not left. -/
theorem Routine.expand_cases {routine : Routine}
    (covered : ∀ {name : String} {callee : Routine}, registry[name]? = some callee → callee.Covered)
    (known : ∀ name, registry.Reached routine.calledNames name → name ∈ registry) (rounds : Nat) :
    ((∃ next, routine.expand registry rounds = .ok next) ∧
        routine.demand registry rounds ≤ routine.supply.free) ∨
      (∃ failure, registry.Misfit routine failure ∧ routine.expand registry rounds = .error failure) ∨
      (routine.expand registry rounds = .error .namesExhausted ∧
        ¬routine.demand registry rounds ≤ routine.supply.free) :=
  expandSelected_cases covered (fun traced => traced.takes known) (fun traced stands => traced.block stands)
    traced rounds _

/-! ## Full expansion -/

/-- Let a source load, and let no function of its program reach itself. Expansion for as many rounds as the
largest degree of the main instructions succeeds if and only if each call that occurs passes as many arguments
as its function has inputs, and the names that the expansion needs are left. If they are left and a call does
not fit, it fails with the numbers of such a call. -/
theorem Program.full_expansion_fails_on_arity {source : Source} {program : Program}
    (loaded : load source = .ok program)
    (acyclic : ∀ name, ¬TransGen program.functions.Calls name name) :
    let degree := degreeOf program.functions.bodyDegree program.main.instructions
    ((∃ next, program.expand degree = .ok next) ↔
      (∀ call, program.functions.Occurring program.main call → call.Suits program.functions) ∧
        program.main.demand program.functions degree ≤ program.main.supply.free) ∧
    (program.main.demand program.functions degree ≤ program.main.supply.free →
      (∃ call, program.functions.Occurring program.main call ∧ ¬call.Suits program.functions) →
      ∃ call callee, program.functions.Occurring program.main call ∧
        program.functions[call.function]? = some callee ∧
        callee.inputs.length ≠ call.arguments.length ∧
        program.expand degree =
          .error (.argumentCount call.function callee.inputs.length call.arguments.length)) := by
  intro degree
  obtain ⟨sourceMain, linked⟩ := load_ok loaded
  have consistent : program.main.Consistent source.program := by
    rw [sourceMain]
    exact (Definition.Becomes.source : source.program.Becomes (fun _ => True) _).consistent
  have covered {name : String} {callee : Routine} (found : program.functions[name]? = some callee) :
      callee.Covered := by
    obtain ⟨function, _, _, rfl⟩ := load_functions loaded found
    exact Routine.covered_ofDefinition function
  have known : ∀ name, program.functions.Reached program.main.calledNames name →
      name ∈ program.functions := fun name reached => Registry.mem_of_reached linked (sourceMain ▸ reached)
  have outcome {result : Except Failure Routine} (expanded : program.main.expand program.functions degree = result) :
      program.expand degree = result.map fun main => { program with main } := by
    rw [expand, expanded]
  rcases Routine.expand_cases covered known degree with
    ⟨⟨next, expanded⟩, room⟩ | ⟨failure, ⟨call, callee, occurring, found, misfits, rfl⟩, failed⟩ |
    ⟨failed, short⟩
  · have suits : ∀ call, program.functions.Occurring program.main call → call.Suits program.functions :=
      fun call occurring => Routine.suits_of_expand consistent acyclic expanded occurring
    refine ⟨iff_of_true ⟨_, outcome expanded⟩ ⟨suits, room⟩, ?_⟩
    rintro - ⟨call, occurring, unsuited⟩
    exact (unsuited (suits call occurring)).elim
  · refine ⟨iff_of_false ?_ ?_, fun _ _ => ⟨call, callee, occurring, found, misfits, outcome failed⟩⟩
    · rintro ⟨next, expanded⟩
      cases (outcome failed).symm.trans expanded
    · rintro ⟨suits, -⟩
      obtain ⟨other, otherFound, arity⟩ := suits call occurring
      obtain rfl := Option.some.inj (found.symm.trans otherFound)
      exact misfits arity
  · refine ⟨iff_of_false ?_ fun both => short both.2, fun room => (short room).elim⟩
    rintro ⟨next, expanded⟩
    cases (outcome failed).symm.trans expanded

/-- A function passes two arguments inside the arguments of another call, where one is expected. -/
def crowdedArguments : Source :=
  ⟨callsTwice, [nextDefinition,
    ⟨"Twice", [.plain (.quote .result ⟨"Next", [.call "Next" [.var (.input 1), .var .result]]⟩)]⟩]⟩

theorem crowdedArguments_acyclic : crowdedArguments.Acyclic := by
  have calls : ∀ {caller callee}, crowdedArguments.Calls caller callee →
      caller = "Twice" ∧ callee = "Next" := by
    rintro caller callee ⟨function, member, rfl, called⟩
    simp only [crowdedArguments, List.mem_cons, List.not_mem_nil, or_false] at member
    rcases member with rfl | rfl
    · simp [nextDefinition, Operation.calledNames, Operation.call?, Instruction.plain] at called
    · refine ⟨rfl, ?_⟩
      simpa [Operation.mem_calledNames, Operation.call?, Instruction.plain, Call.calls,
        Call.toArgument, Argument.calls, Argument.callsAll, eq_comm] using called
  refine Source.acyclic_of_leaves fun first second => ?_
  have differ := (calls first).2.symm.trans (calls second).1
  exact absurd differ (by decide)

theorem Program.load_stackedSource : ∃ program next, load stackedSource = .ok program ∧
    degreeOf program.functions.bodyDegree program.main.instructions = 5 ∧ program.expand 5 = .ok next := by
  have evaluated : (load stackedSource).map (fun program =>
      (degreeOf program.functions.bodyDegree program.main.instructions, (program.expand 5).map fun _ => ())) =
      .ok (5, .ok ()) := by
    decide +kernel
  cases loaded : load stackedSource with
  | error failure =>
      rw [loaded] at evaluated
      cases evaluated
  | ok program =>
      rw [loaded] at evaluated
      obtain ⟨degree, outcome⟩ := Prod.mk.inj (Except.ok.inj evaluated)
      cases expanded : program.expand 5 with
      | error failure =>
          rw [expanded] at outcome
          cases outcome
      | ok next => exact ⟨program, next, rfl, degree, expanded⟩

theorem Program.load_crowdedArguments : ∃ program, load crowdedArguments = .ok program ∧
    degreeOf program.functions.bodyDegree program.main.instructions = 5 ∧
    program.main.demand program.functions 5 ≤ program.main.supply.free ∧
    program.expand 5 = .error (.argumentCount "Next" 1 2) := by
  have evaluated : (load crowdedArguments).map (fun program =>
      (degreeOf program.functions.bodyDegree program.main.instructions, (program.expand 5).map fun _ => (),
        program.main.supply.names, program.main.supply.labels.size, program.main.supply.vars.size,
        program.main.demand program.functions 5)) =
      .ok (5, .error (.argumentCount "Next" 1 2), ⟨0, 0⟩, 0, 2, ⟨46, 33⟩) := by
    decide +kernel
  cases loaded : load crowdedArguments with
  | error failure =>
      rw [loaded] at evaluated
      cases evaluated
  | ok program =>
      rw [loaded] at evaluated
      simp only [Except.map, Except.ok.injEq, Prod.mk.injEq] at evaluated
      obtain ⟨degree, outcome, names, labels, vars, needed⟩ := evaluated
      refine ⟨program, rfl, degree, Supply.le_free ?_ ?_, ?_⟩
      · rw [names, labels, needed]
        decide
      · rw [names, vars, needed]
        decide
      · cases expanded : program.expand 5 with
        | ok next =>
            rw [expanded] at outcome
            cases outcome
        | error failure =>
            rw [expanded] at outcome
            cases outcome
            rfl

/-- Where all calls fit, five rounds succeed. A misfit is met in the second round, after the first two calls
fitted. -/
theorem Program.stacked_fits_and_crowded_fails_on_arity :
    (∃ program, load stackedSource = .ok program ∧
      (∀ name, ¬TransGen program.functions.Calls name name) ∧
      degreeOf program.functions.bodyDegree program.main.instructions = 5 ∧
      (∀ call, program.functions.Occurring program.main call → call.Suits program.functions) ∧
      program.main.demand program.functions 5 ≤ program.main.supply.free ∧
      ∃ next, program.expand 5 = .ok next) ∧
    ∃ program, load crowdedArguments = .ok program ∧
      (∀ name, ¬TransGen program.functions.Calls name name) ∧
      degreeOf program.functions.bodyDegree program.main.instructions = 5 ∧
      (¬∀ call, program.functions.Occurring program.main call → call.Suits program.functions) ∧
      program.main.demand program.functions 5 ≤ program.main.supply.free ∧
      program.expand 5 = .error (.argumentCount "Next" 1 2) := by
  have acyclic {source : Source} {program : Program} (loaded : load source = .ok program)
      (leaves : source.Acyclic) (name : String) : ¬TransGen program.functions.Calls name name := fun cycle =>
    leaves name (TransGen.mono (fun _ _ => calls_source loaded) _ _ cycle)
  constructor
  · obtain ⟨program, next, loaded, degree, expanded⟩ := load_stackedSource
    have grounded := acyclic loaded stackedSource_acyclic
    obtain ⟨exactly, _⟩ := full_expansion_fails_on_arity loaded grounded
    rw [degree] at exactly
    obtain ⟨suits, room⟩ := exactly.mp ⟨next, expanded⟩
    exact ⟨program, loaded, grounded, degree, suits, room, next, expanded⟩
  · obtain ⟨program, loaded, degree, room, failed⟩ := load_crowdedArguments
    have grounded := acyclic loaded crowdedArguments_acyclic
    obtain ⟨exactly, _⟩ := full_expansion_fails_on_arity loaded grounded
    rw [degree, failed] at exactly
    refine ⟨program, loaded, grounded, degree, fun suits => ?_, room, failed⟩
    obtain ⟨next, impossible⟩ := exactly.mpr ⟨suits, room⟩
    cases impossible

end CounterMachine
