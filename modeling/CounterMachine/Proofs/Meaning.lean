import CounterMachine.Proofs.Acceptance
import CounterMachine.Proofs.Simulation
set_option autoImplicit false

/-!
# Meaning under expansion

Unfolding keeps the meaning of code: it halts if and only if the code it came from halts, with the same
values in the variables of the source. As every state of a routine is an unfolding of its definition, no
expansion and no collapse changes what a program computes.
-/

namespace CounterMachine

/-- On some store, one piece of code halts if and only if the other does, and some variables have the same
values then. -/
structure SameMeaning (registry : Registry) (visible : Variable → Prop) (store : Store)
    (left right : List Instruction) : Prop where
  halts : ∀ {count last}, Halts registry left count (some 0) store last →
    ∃ steps other, Halts registry right steps (some 0) store other ∧
      ∀ name, visible name → last name = other name
  converse : ∀ {count last}, Halts registry right count (some 0) store last →
    ∃ steps other, Halts registry left steps (some 0) store other

section Meaning

variable {registry : Registry} {visible : Variable → Prop} {store : Store}
  {left middle right : List Instruction}

theorem SameMeaning.refl (code : List Instruction) : SameMeaning registry visible store code code :=
  ⟨fun halts => ⟨_, _, halts, fun _ _ => rfl⟩, fun halts => ⟨_, _, halts⟩⟩

theorem SameMeaning.trans (first : SameMeaning registry visible store left middle)
    (second : SameMeaning registry visible store middle right) :
    SameMeaning registry visible store left right := by
  constructor
  · intro count last halts
    obtain ⟨_, between, halts, same⟩ := first.halts halts
    obtain ⟨steps, other, halts, alsoSame⟩ := second.halts halts
    exact ⟨steps, other, halts, fun name seen => (same name seen).trans (alsoSame name seen)⟩
  · intro count last halts
    obtain ⟨_, _, halts⟩ := second.converse halts
    exact first.converse halts

/-- One block in the place of an instruction does not change the meaning if its names are not seen and 0 at
the start. -/
theorem Replaces.sameMeaning {body : List Instruction} {place extra : Nat} {instruction : Instruction}
    {draft : Draft} (replaces : Replaces registry left right place extra instruction draft body)
    (wellFormed : registry.WellFormed) (resolved : Resolved left) (distinct : (attached right).Nodup)
    (zeros : ∀ name ∈ draft.works, store name = 0) (unseen : ∀ name ∈ draft.works, ¬ visible name) :
    SameMeaning registry visible store left right := by
  have follows : Follows instruction.operation draft store store := ⟨.refl _ _, .of_zeros zeros⟩
  have start : (some 0).map (shifted place extra) = some 0 := by
    rw [Option.map_some, shifted, if_pos (Nat.zero_le _)]
  constructor
  · intro count last halts
    obtain ⟨steps, other, halts, agree⟩ := replaces.halts wellFormed follows halts
    rw [start] at halts
    exact ⟨steps, other, halts, fun name seen => agree name fun drawn => unseen name drawn seen⟩
  · intro count last halts
    rw [← start] at halts
    exact replaces.halts_of_halts wellFormed resolved distinct follows halts

/-- Unfolded code has the meaning of its source. -/
theorem Unfolding.sameMeaning {source final : List Instruction}
    (unfolding : Unfolding registry [] source final) (wellFormed : registry.WellFormed)
    (resolved : Resolved source)
    (zeros : ∀ name, name.isWork = true → .var name ∉ namesIn source → store name = 0) :
    SameMeaning registry (fun name => name.isWork = true → .var name ∈ namesIn source) store source
      final := by
  -- The code stays resolved, and it goes on mentioning the names of the source.
  have kept : Resolved final ∧ namesIn source ⊆ namesIn final ∧
      SameMeaning registry (fun name => name.isWork = true → .var name ∈ namesIn source) store source
        final := by
    refine @Unfolding.preserves registry (fun code => Resolved code ∧ namesIn source ⊆ namesIn code ∧
      SameMeaning registry (fun name => name.isWork = true → .var name ∈ namesIn source) store source
        code) ?_ _ _ _ unfolding ⟨resolved, Set.Subset.refl _, .refl _⟩
    intro before rest body instruction draft stands avoids kept
    obtain ⟨resolved, included, same⟩ := kept
    have unfolded := resolved.unfold stands wellFormed avoids
    have undrawn : ∀ name ∈ draft.works, .var name ∉ namesIn source := by
      intro name drawn occurs
      exact avoids.unused (.var name) (Draft.var_mem_names.mpr drawn) (included occurs)
    refine ⟨unfolded, included.trans ?_, same.trans ?_⟩
    · rw [namesIn_unfolded stands wellFormed avoids.named]
      exact Set.subset_union_left
    · refine (Replaces.ofUnfold stands avoids).sameMeaning wellFormed resolved unfolded.unique ?_ ?_
      · intro name drawn
        exact zeros name (avoids.work name drawn) (undrawn name drawn)
      · intro name drawn seen
        exact undrawn name drawn (seen (avoids.work name drawn))
  exact kept.2.2

end Meaning

theorem Frontier.sameMeaning {registry : Registry} {definition : Definition} {routine : Routine}
    {branches : List Branch} {draft : Draft}
    (frontier : Frontier registry definition routine branches draft) (wellFormed : registry.WellFormed)
    (resolved : Resolved definition.body) (arguments : List UInt64) :
    SameMeaning registry (fun name => name.isWork = true → .var name ∈ namesIn definition.body)
      (Store.bind (fun _ => 0) (definition.inputs.zip arguments)) definition.body
      routine.instructions := by
  refine (frontier.unfolding wellFormed).sameMeaning wellFormed resolved ?_
  intro name work _
  exact definition.start_work arguments work

/-! ## Runs of routines with the same meaning -/

section Runs

variable {registry : Registry} {visible : Variable → Prop} {source current : Routine}
  {arguments : List UInt64}

theorem SameMeaning.run_iff
    (same : SameMeaning registry visible (Store.bind (fun _ => 0) (source.inputs.zip arguments))
      source.instructions current.instructions)
    (inputs : current.inputs = source.inputs) (sourceRunnable : source.Runnable registry)
    (runnable : current.Runnable registry) :
    (∃ fuel ended value, current.run registry fuel arguments = (ended, .done value)) ↔
      ∃ fuel ended value, source.run registry fuel arguments = (ended, .done value) := by
  constructor
  · intro finished
    obtain ⟨fuel, ended, value, done⟩ := finished
    obtain ⟨count, halts⟩ := runnable.halts_of_run done
    rw [inputs] at halts
    obtain ⟨steps, other, halts⟩ := same.converse halts
    obtain ⟨enough, last, finished, _⟩ := sourceRunnable.run_of_halts halts
    exact ⟨enough, last, _, finished⟩
  · intro finished
    obtain ⟨fuel, ended, value, done⟩ := finished
    obtain ⟨count, halts⟩ := sourceRunnable.halts_of_run done
    obtain ⟨steps, other, halts, _⟩ := same.halts halts
    rw [← inputs] at halts
    obtain ⟨enough, last, finished, _⟩ := runnable.run_of_halts halts
    exact ⟨enough, last, _, finished⟩

theorem SameMeaning.run_value
    (same : SameMeaning registry visible (Store.bind (fun _ => 0) (source.inputs.zip arguments))
      source.instructions current.instructions)
    (inputs : current.inputs = source.inputs) (sourceRunnable : source.Runnable registry)
    (runnable : current.Runnable registry) {fuel sourceFuel : Nat} {ended sourceEnded : Routine}
    {value sourceValue : UInt64} (done : current.run registry fuel arguments = (ended, .done value))
    (sourceDone : source.run registry sourceFuel arguments = (sourceEnded, .done sourceValue))
    {name : Variable} (seen : visible name) :
    ended.state.value name = sourceEnded.state.value name := by
  obtain ⟨count, halts⟩ := runnable.halts_of_run done
  obtain ⟨sourceCount, sourceHalts⟩ := sourceRunnable.halts_of_run sourceDone
  obtain ⟨steps, other, alsoHalts, equal⟩ := same.halts sourceHalts
  rw [inputs] at halts
  -- The run of the code is unique, so it is the one that the meaning speaks of.
  have last := halts.unique runnable.resolved.unique alsoHalts
  exact (congrFun last name).trans (equal name seen).symm

end Runs

/-- Expansion preserves meaning. Whatever was done to the main routine of an accepted source, its run on any
arguments comes to an end if and only if the run of the routine as it was loaded does, and then both yield
the same result and leave the same values in all variables of the source. -/
theorem Program.expansion_preserves_meaning (source : Source) (accepted : source.violations = []) :
    ∃ program, Program.load source = .ok program ∧ ∀ (actions : List Action) (arguments : List UInt64),
      let current := program.main.after program.functions actions
      ((∃ fuel ended value, current.run program.functions fuel arguments = (ended, .done value)) ↔
        ∃ fuel ended value, program.main.run program.functions fuel arguments = (ended, .done value)) ∧
      ∀ (fuel : Nat) (ended : Routine) (value : UInt64) (sourceFuel : Nat) (sourceEnded : Routine)
        (sourceValue : UInt64),
        current.run program.functions fuel arguments = (ended, .done value) →
        program.main.run program.functions sourceFuel arguments = (sourceEnded, .done sourceValue) →
        value = sourceValue ∧
          ∀ name ∈ source.program.vars, ended.state.value name = sourceEnded.state.value name := by
  obtain ⟨program, loaded, sourceMain, wellFormed, resolved, fit⟩ := Program.load_wellFormed accepted
  refine ⟨program, loaded, ?_⟩
  intro actions arguments current
  have sourceFrontier := Frontier.ofDefinition program.functions source.program
  rw [← sourceMain] at sourceFrontier
  obtain ⟨branches, draft, frontier⟩ := sourceFrontier.after actions
  have sourceRunnable := sourceFrontier.runnable wellFormed resolved fit
  have runnable := frontier.runnable wellFormed resolved fit
  have inputs : current.inputs = program.main.inputs := frontier.inputs.trans sourceFrontier.inputs.symm
  have same := frontier.sameMeaning wellFormed resolved arguments
  rw [← sourceFrontier.inputs, ← Routine.instructions_ofDefinition source.program, ← sourceMain] at same
  refine ⟨same.run_iff inputs sourceRunnable runnable, ?_⟩
  intro fuel ended value sourceFuel sourceEnded sourceValue done sourceDone
  have equal : ∀ name ∈ source.program.vars, ended.state.value name = sourceEnded.state.value name := by
    intro name member
    refine same.run_value inputs sourceRunnable runnable done sourceDone ?_
    intro work
    rcases Definition.mem_vars.mp member with result | occurs
    · rw [result] at work
      cases work
    · rw [sourceMain, Routine.instructions_ofDefinition]
      exact occurs
  refine ⟨?_, equal⟩
  obtain ⟨_, result⟩ := Routine.run_done_iff.mp done
  obtain ⟨_, sourceResult⟩ := Routine.run_done_iff.mp sourceDone
  rw [← result, ← sourceResult]
  exact equal .result (Definition.mem_vars.mpr (.inl rfl))

theorem Program.sample_expansion_preserves_meaning :
    sampleSource.violations = [] ∧ ∃ program, Program.load sampleSource = .ok program ∧
      ∀ actions, ∃ fuel ended, (program.main.after program.functions actions).run program.functions fuel
        [5] = (ended, .done 6) := by
  refine ⟨sampleSource_accepted, ?_⟩
  obtain ⟨program, loaded, preserved⟩ :=
    Program.expansion_preserves_meaning sampleSource sampleSource_accepted
  have unexpanded : (Program.load sampleSource).toOption.map (fun program =>
      (program.main.run program.functions 10 [5]).2) = some (.done 6) := by
    decide +kernel
  rw [loaded] at unexpanded
  have sourceDone : program.main.run program.functions 10 [5] =
      ((program.main.run program.functions 10 [5]).1, .done 6) :=
    Prod.ext rfl (Option.some.inj unexpanded)
  refine ⟨program, loaded, fun actions => ?_⟩
  obtain ⟨halts, values⟩ := preserved actions [5]
  obtain ⟨fuel, ended, value, done⟩ := halts.mpr ⟨10, _, 6, sourceDone⟩
  obtain ⟨same, _⟩ := values fuel ended value 10 _ 6 done sourceDone
  exact ⟨fuel, ended, same ▸ done⟩

end CounterMachine
