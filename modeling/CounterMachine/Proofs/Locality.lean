import CounterMachine.Proofs.Linking
set_option autoImplicit false

/-!
# What depends on a registry

A routine looks up only the functions that it reaches. Two registries with the same functions under names that
are closed under calls therefore give the same steps, the same expansions and the same degrees. The functions
that resolution finds are such a part of the registry, so a routine loses nothing when it is linked to them.
-/

namespace CounterMachine

/-- Two registries have the same functions under some names, and these functions call only such names. -/
structure Registry.AgreeOn (left right : Registry) (known : String → Prop) : Prop where
  same : ∀ {name : String}, known name → left[name]? = right[name]?
  closed : ∀ {name : String} {callee : Routine}, known name → left[name]? = some callee →
    ∀ called ∈ callee.calledNames, known called

variable {left right : Registry} {known : String → Prop}

/-! ## Runs -/

/-- Two ways of running functions give the same reply for each known function. -/
def Registry.RunsAlike (registry : Registry) (known : String → Prop) (run other : Argument.Runner) : Prop :=
  ∀ {name : String} {callee : Routine}, known name → registry[name]? = some callee →
    ∀ arguments, run callee arguments = other callee arguments

namespace Argument

variable {run other : Runner}

mutual

theorem evaluate_congr (agree : left.AgreeOn right known) (alike : left.RunsAlike known run other)
    (values : Values) : (argument : Argument) → (∀ call ∈ argument.calls, known call.function) →
    argument.evaluate left run values = argument.evaluate right other values
  | .var name, _ => by rw [evaluate, evaluate]
  | .call function arguments, within => by
      rw [calls, List.forall_mem_cons] at within
      rw [evaluate, evaluate, ← agree.same within.1, evaluateAll_congr agree alike values arguments within.2]
      cases found : left[function]? with
      | none => rfl
      | some callee => simp only [alike within.1 found]

theorem evaluateAll_congr (agree : left.AgreeOn right known) (alike : left.RunsAlike known run other)
    (values : Values) : (arguments : List Argument) → (∀ call ∈ callsAll arguments, known call.function) →
    evaluateAll left run values arguments = evaluateAll right other values arguments
  | [], _ => by rw [evaluateAll, evaluateAll]
  | argument :: rest, within => by
      rw [callsAll, List.forall_mem_append] at within
      rw [evaluateAll, evaluateAll, evaluate_congr agree alike values argument within.1,
        evaluateAll_congr agree alike values rest within.2]

end

end Argument

namespace Routine

variable {routine next : Routine}

theorem SameCode.calledNames (same : routine.SameCode next) : next.calledNames = routine.calledNames := by
  rw [Routine.calledNames, calls, same.instructions]
  rfl

theorem mem_instructions {position : Nat} {instruction : Instruction}
    (found : routine.instruction? position = some instruction) : instruction ∈ routine.instructions := by
  obtain ⟨node, there, rfl⟩ := Option.map_eq_some_iff.mp found
  obtain ⟨id, atPosition, held⟩ := Option.bind_eq_some_iff.mp there
  exact List.mem_map_of_mem (List.mem_filterMap.mpr ⟨id, List.mem_of_getElem? atPosition, held⟩)

theorem stepWith_congr {run other : Argument.Runner} (agree : left.AgreeOn right known)
    (alike : left.RunsAlike known run other) (within : ∀ name ∈ routine.calledNames, known name) :
    routine.stepWith left run = routine.stepWith right other := by
  cases going : routine.state.halted with
  | true => rw [stepWith_halted going, stepWith_halted going]
  | false =>
      cases found : routine.instruction? routine.state.position with
      | none => rw [stepWith_past going found, stepWith_past going found]
      | some instruction =>
          have same : routine.attempt left run instruction = routine.attempt right other instruction := by
            refine Operation.execute_congr fun call calls => ?_
            refine Argument.evaluate_congr agree alike _ _ fun inner nested => within _ ?_
            exact mem_calledNames.mpr ⟨instruction, mem_instructions found,
              Operation.mem_calledNames.mpr ⟨call, calls, inner, nested, rfl⟩⟩
          rw [stepWith_found going found, stepWith_found going found, same]

/-- Runs that agree on routines within the known functions give the same replies. -/
theorem replyOf_congr {finish other : Routine → Routine × Outcome Unit} (agree : left.AgreeOn right known)
    (ends : ∀ {routine : Routine}, (∀ name ∈ routine.calledNames, known name) →
      finish routine = other routine) : left.RunsAlike known (replyOf finish) (replyOf other) := by
  intro name callee isKnown found arguments
  have within : ∀ called ∈ (callee.start arguments).calledNames, known called := by
    rw [(SameCode.start callee arguments).calledNames]
    exact agree.closed isKnown found
  rw [replyOf, replyOf, ends within]

theorem finish_congr (agree : left.AgreeOn right known) (fuel : Nat)
    (within : ∀ name ∈ routine.calledNames, known name) :
    routine.finish left fuel = routine.finish right fuel := by
  induction fuel generalizing routine with
  | zero => rfl
  | succ fuel ih =>
      have same := stepWith_congr agree (replyOf_congr agree ih) within
      have kept := (SameCode.stepWith left (replyOf (finish left fuel)) routine).calledNames
      rw [finish, finish, ← same]
      generalize routine.stepWith left (replyOf (finish left fuel)) = step at kept
      obtain ⟨next, outcome⟩ := step
      rcases outcome with (⟨position, cycles⟩ | _) | failure | _
      · exact ih (kept ▸ within)
      · rfl
      · rfl
      · rfl

theorem step_congr (agree : left.AgreeOn right known) (fuel : Nat)
    (within : ∀ name ∈ routine.calledNames, known name) :
    routine.step left fuel = routine.step right fuel :=
  stepWith_congr agree (replyOf_congr agree (finish_congr agree fuel)) within

theorem run_congr (agree : left.AgreeOn right known) (fuel : Nat) (arguments : List UInt64)
    (within : ∀ name ∈ routine.calledNames, known name) :
    routine.run left fuel arguments = routine.run right fuel arguments := by
  rw [run, run, finish_congr agree fuel]
  rwa [(SameCode.start routine arguments).calledNames]

end Routine

/-! ## Expansion -/

/-- What follows a computation matters only for the values that it can yield. -/
theorem Fresh.bind_congr {α β : Type} {first : Fresh α} {second other : α → Fresh β}
    (same : ∀ {supply value next}, first supply = .ok (value, next) → second value = other value) :
    (first >>= second) = (first >>= other) := by
  funext supply
  change (first supply >>= fun pair => second pair.1 pair.2) = first supply >>= fun pair => other pair.1 pair.2
  cases ran : first supply with
  | error failure => rfl
  | ok pair => exact congrFun (same ran) pair.2

theorem Fresh.mapM_congr {α β : Type} {action other : α → Fresh β} {members : List α}
    (same : ∀ member ∈ members, action member = other member) :
    members.mapM action = members.mapM other := by
  induction members with
  | nil => rfl
  | cons member rest ih =>
      rw [List.mapM_cons, List.mapM_cons, same member List.mem_cons_self,
        ih fun later inRest => same later (List.mem_cons_of_mem _ inRest)]

theorem Operation.expansion_congr {operation : Operation}
    (same : ∀ call, operation.call? = some call → left[call.function]? = right[call.function]?) :
    operation.expansion left = operation.expansion right := by
  cases operation with
  | quote subject call | jumpEqualFunction subject call target =>
      simp only [expansion, Inlining.inline, same call rfl]
  | _ => rfl

theorem Instruction.derive_congr (agree : left.AgreeOn right known) (rounds : Nat) {instruction : Instruction}
    (within : ∀ name ∈ instruction.operation.calledNames, known name) :
    instruction.derive left rounds = instruction.derive right rounds := by
  induction rounds generalizing instruction with
  | zero => rfl
  | succ rounds ih =>
      cases basic : instruction.isBasic with
      | true => rw [derive, derive, basic, if_pos rfl, if_pos rfl]
      | false =>
          have round : instruction.operation.expansion left = instruction.operation.expansion right := by
            refine Operation.expansion_congr fun call calls => agree.same (within _ ?_)
            exact Operation.mem_calledNames.mpr ⟨call, calls, call, List.mem_cons_self, rfl⟩
          rw [derive, derive, basic, if_neg Bool.false_ne_true, if_neg Bool.false_ne_true, ← round]
          refine Fresh.bind_congr fun expanded => ?_
          obtain ⟨draft, stands, _⟩ := Operation.expansion_ok basic expanded
          have closed {caller callee : String} (isKnown : known caller) (calls : left.Calls caller callee) :
              known callee := by
            obtain ⟨_, found, called⟩ := calls
            exact agree.closed isKnown found _ called
          have inner := stands.known_block closed within
          rw [Fresh.mapM_congr fun child inBlock => ih (forall_mem_labelFirst
            (P := fun operation => ∀ name ∈ operation.calledNames, known name) inner child inBlock)]

theorem Routine.expandSelected_congr (agree : left.AgreeOn right known) {routine : Routine}
    (within : ∀ name ∈ routine.calledNames, known name) (rounds : Nat) (selected : Nat → Bool) :
    routine.expandSelected left rounds selected = routine.expandSelected right rounds selected := by
  have derived : routine.derivations left rounds selected = routine.derivations right rounds selected := by
    refine Fresh.mapM_congr fun place member => ?_
    have inCode : place.1 ∈ routine.instructions :=
      List.mem_of_getElem? (List.mem_zipIdx_iff_getElem?.mp member)
    dsimp only
    rw [Instruction.derive_congr agree rounds fun name called =>
      within name (mem_calledNames.mpr ⟨place.1, inCode, called⟩)]
  rw [expandSelected, expandSelected, derived]

/-! ## Degrees -/

theorem Registry.AgreeOn.erase (agree : left.AgreeOn right known) (name : String) :
    Registry.AgreeOn (left.erase name) (right.erase name) known where
  same := by
    intro other isKnown
    rw [Std.ExtTreeMap.getElem?_erase, Std.ExtTreeMap.getElem?_erase, agree.same isKnown]
  closed := fun isKnown found => agree.closed isKnown (getElem?_erase_iff.mp found).2

theorem Registry.bodyDegree_congr (agree : left.AgreeOn right known) {name : String} (isKnown : known name) :
    left.bodyDegree name = right.bodyDegree name := by
  -- Entering a body erases its function from both registries.
  induction size : left.size using Nat.strong_induction_on generalizing left right name with
  | _ _ ih =>
      subst size
      have same := agree.same isKnown
      cases found : left[name]? with
      | none => rw [bodyDegree_of_none found, bodyDegree_of_none (same.symm.trans found)]
      | some routine =>
          rw [bodyDegree_of_some found, bodyDegree_of_some (same.symm.trans found)]
          refine Routine.degreeOf_congr fun callee called => ?_
          exact ih _ (size_erase_lt found) (agree.erase name) (agree.closed isKnown found callee called) rfl

theorem Routine.degree_congr (agree : left.AgreeOn right known) {routine : Routine}
    (within : ∀ name ∈ routine.calledNames, known name) : routine.degree left = routine.degree right :=
  degreeOf_congr fun callee called =>
    Registry.bodyDegree_congr (agree.erase routine.name) (within callee called)

/-! ## Resolved functions -/

/-- The functions that are resolved for a routine agree with the registry on all that the routine reaches. -/
theorem Registry.agreeOn_resolve {registry functions : Registry} {routine : Routine}
    (linked : registry.resolve routine = .ok functions) :
    functions.AgreeOn registry (registry.Reached routine.calledNames) where
  same := getElem?_resolve linked
  closed := fun reached found _ member => reached.calls ⟨_, resolve_part linked found, member⟩

/-- Resolution finds exactly the functions that a routine reaches, and they serve the routine as well as the
whole registry does. It fails only for a reached function that is not registered. -/
theorem Registry.resolve_exact (registry : Registry) (routine : Routine) :
    ((∃ functions, registry.resolve routine = .ok functions) ↔
      ∀ name, registry.Reached routine.calledNames name → name ∈ registry) ∧
    (∀ functions, registry.resolve routine = .ok functions →
      (∀ name, name ∈ functions ↔ registry.Reached routine.calledNames name) ∧
      (∀ name ∈ functions, functions[name]? = registry[name]?) ∧
      (∀ fuel, routine.step functions fuel = routine.step registry fuel) ∧
      (∀ fuel arguments, routine.run functions fuel arguments = routine.run registry fuel arguments) ∧
      (∀ rounds, routine.expand functions rounds = routine.expand registry rounds) ∧
      (∀ key rounds, routine.expandSingle functions key rounds = routine.expandSingle registry key rounds) ∧
      routine.degree functions = routine.degree registry) ∧
    ∀ failure, registry.resolve routine = .error failure →
      ∃ name, failure = .unknownFunction name ∧ registry.Reached routine.calledNames name ∧
        name ∉ registry := by
  refine ⟨⟨?_, exists_resolve⟩, ?_, ?_⟩
  · rintro ⟨functions, linked⟩ name reached
    obtain ⟨callee, found⟩ := mem_iff_exists.mp ((mem_resolve linked).mpr reached)
    exact mem_iff_exists.mpr ⟨callee, resolve_part linked found⟩
  · intro functions linked
    have agree := agreeOn_resolve linked
    have within : ∀ name ∈ routine.calledNames, registry.Reached routine.calledNames name :=
      fun name member => ⟨name, member, .refl⟩
    refine ⟨fun name => mem_resolve linked, ?_, fun fuel => Routine.step_congr agree fuel within,
      fun fuel arguments => Routine.run_congr agree fuel arguments within,
      fun rounds => Routine.expandSelected_congr agree within rounds _, ?_, Routine.degree_congr agree within⟩
    · intro name member
      exact getElem?_resolve linked ((mem_resolve linked).mp member)
    · intro key rounds
      simp only [Routine.expandSingle, Routine.expandSelected_congr agree within]
  · intro failure failed
    obtain ⟨name, same, reached, missing⟩ := resolve_error failed
    refine ⟨name, same, reached, fun member => ?_⟩
    obtain ⟨callee, found⟩ := mem_iff_exists.mp member
    rw [missing] at found
    cases found

/-- Two functions that call each other, and one that nothing calls. -/
def evenAndOdd : Registry :=
  .ofSource ⟨⟨"Main", []⟩,
    [⟨"Even", [.plain (.quote .result ⟨"Odd", [.var (.input 1)]⟩)]⟩,
      ⟨"Odd", [.plain (.quote .result ⟨"Even", [.call "Odd" [.var (.input 1)]]⟩)]⟩,
      ⟨"Unused", [.plain (.increase .result)]⟩]⟩

def callsEven : Routine :=
  .ofDefinition ⟨"Main", [.plain (.quote .result ⟨"Even", [.var (.input 1)]⟩)]⟩

theorem Registry.evenAndOdd_resolve_exact :
    "Unused" ∈ evenAndOdd ∧ ∃ functions, evenAndOdd.resolve callsEven = .ok functions ∧
      "Odd" ∈ functions ∧ "Unused" ∉ functions ∧
      ∀ rounds, callsEven.expand functions rounds = callsEven.expand evenAndOdd rounds := by
  have evaluated : (evenAndOdd.resolve callsEven).map (fun functions => functions.keys) =
      .ok ["Even", "Odd"] := by
    decide +kernel
  refine ⟨by decide +kernel, ?_⟩
  cases linked : evenAndOdd.resolve callsEven with
  | error failure =>
      rw [linked] at evaluated
      cases evaluated
  | ok functions =>
      rw [linked] at evaluated
      have keys : functions.keys = ["Even", "Odd"] := Except.ok.inj evaluated
      obtain ⟨_, exact, _⟩ := Registry.resolve_exact evenAndOdd callsEven
      obtain ⟨_, _, _, _, expands, _⟩ := exact functions linked
      refine ⟨functions, rfl, ?_, ?_, expands⟩
      · rw [← Std.ExtTreeMap.mem_keys, keys]
        decide
      · rw [← Std.ExtTreeMap.mem_keys, keys]
        decide

end CounterMachine
