import CounterMachine.Proofs.Acceptance
import CounterMachine.Verification
set_option autoImplicit false

/-!
# What the passes find

The passes of verification find all violations of a source, in the order in which they are listed. What a pass
keeps while it goes through a text is a summary of the part that it has seen.
-/

namespace CounterMachine

/-! ## Names -/

/-- A set holds the names that came up at least as often as a bound says. -/
def CameUp (bound : Nat) (names : List String) (set : Std.ExtTreeSet String) : Prop :=
  ∀ name, name ∈ set ↔ bound ≤ names.count name

namespace CameUp

variable {bound : Nat} {names : List String} {set : Std.ExtTreeSet String} {name : String}

/-- The set stays as it is if the next name does not reach the bound just now. -/
theorem skip (cameUp : CameUp bound names set) (other : names.count name + 1 ≠ bound) :
    CameUp bound (names ++ [name]) set := by
  intro later
  by_cases same : name = later
  · subst same
    simp only [cameUp name, List.count_append, List.count_singleton_self]
    omega
  · simp only [cameUp later, List.count_append, List.count_singleton, beq_iff_eq, same, if_false, Nat.add_zero]

/-- The next name joins the set if it reaches the bound just now. -/
theorem insert (cameUp : CameUp bound names set) (reaches : names.count name + 1 = bound) :
    CameUp bound (names ++ [name]) (set.insert name) := by
  intro later
  by_cases same : name = later
  · subst same
    simp only [Std.ExtTreeSet.mem_insert, Std.LawfulEqCmp.compare_eq_iff_eq, true_or, true_iff,
      List.count_append, List.count_singleton_self]
    omega
  · simp only [Std.ExtTreeSet.mem_insert, Std.LawfulEqCmp.compare_eq_iff_eq, same, false_or, cameUp later,
      List.count_append, List.count_singleton, beq_iff_eq, if_false, Nat.add_zero]

end CameUp

/-- A name is repeated where it has come up exactly once before. -/
theorem repeatedNames_eq {seen reported : Std.ExtTreeSet String} {before rest : List String}
    (inSeen : CameUp 1 before seen) (inReported : CameUp 2 before reported) :
    repeatedNames seen reported rest =
      ((rest.zipIdx before.length).filter fun (name, position) =>
        ((before ++ rest).take position).count name = 1).map Prod.fst := by
  induction rest generalizing seen reported before with
  | nil => rfl
  | cons name rest ih =>
      have tail {seen reported : Std.ExtTreeSet String} (inSeen : CameUp 1 (before ++ [name]) seen)
          (inReported : CameUp 2 (before ++ [name]) reported) :
          repeatedNames seen reported rest = ((rest.zipIdx (before.length + 1)).filter fun (later, position) =>
            ((before ++ name :: rest).take position).count later = 1).map Prod.fst := by
        simpa using ih inSeen inReported
      have here : (before ++ name :: rest).take before.length = before := by simp
      simp only [repeatedNames, List.zipIdx_cons, List.filter_cons, here, Std.ExtTreeSet.contains_iff_mem,
        inSeen name, inReported name]
      rcases Nat.lt_trichotomy (before.count name) 1 with never | once | often
      · have unseen : ¬1 ≤ before.count name := by omega
        have notOnce : ¬before.count name = 1 := by omega
        simp only [unseen, notOnce, decide_false, if_false, Bool.false_eq_true]
        exact tail (inSeen.insert (by omega)) (inReported.skip (by omega))
      · simp only [once, Nat.le_refl, Nat.reduceLeDiff, decide_true, if_true, if_false, List.map_cons]
        exact congrArg _ (tail (inSeen.skip (by omega)) (inReported.insert (by omega)))
      · have seenBefore : 1 ≤ before.count name := by omega
        have notOnce : ¬before.count name = 1 := by omega
        simp only [seenBefore, Nat.succ_le_of_lt often, notOnce, decide_false, if_true, if_false,
          Bool.false_eq_true]
        exact tail (inSeen.skip (by omega)) (inReported.skip (by omega))

/-! ## Labels -/

/-- The first places of the named labels that are attached in some code. -/
def FirstPlaces (code : List Instruction) (places : Std.ExtTreeMap Label Nat) : Prop :=
  ∀ index, places[Label.named index]? = code.findIdx? fun instruction => instruction.label = .named index

namespace FirstPlaces

variable {code : List Instruction} {places : Std.ExtTreeMap Label Nat} {instruction : Instruction}

/-- The places stay as they are if the next label is no name, or has a place already. -/
theorem skip (first : FirstPlaces code places)
    (known : ∀ index, instruction.label = .named index → places[Label.named index]? ≠ none) :
    FirstPlaces (code ++ [instruction]) places := by
  intro index
  simp only [List.findIdx?_append, ← first index]
  cases found : places[Label.named index]? with
  | some place => rfl
  | none =>
      have other : instruction.label ≠ .named index := fun same => known index same found
      simp [List.findIdx?_cons, other]

theorem insert (first : FirstPlaces code places) {index : UInt32} (named : instruction.label = .named index)
    (unplaced : places[Label.named index]? = none) :
    FirstPlaces (code ++ [instruction]) (places.insert (.named index) code.length) := by
  intro other
  simp only [List.findIdx?_append, ← first other, Std.ExtTreeMap.getElem?_insert,
    Std.LawfulEqCmp.compare_eq_iff_eq]
  by_cases same : index = other
  · subst same
    simp [unplaced, List.findIdx?_cons, named]
  · simp [same, List.findIdx?_cons, named]

end FirstPlaces

namespace Definition

variable {definition : Definition}

theorem checkAttachments_eq {before rest : List Instruction} {places : Std.ExtTreeMap Label Nat}
    (body : definition.body = before ++ rest) (first : FirstPlaces before places) :
    (checkAttachments definition.name before.length places rest).1 =
        (rest.zipIdx before.length).filterMap (fun (instruction, position) =>
          definition.attachmentViolation? position instruction.label) ∧
      FirstPlaces definition.body (checkAttachments definition.name before.length places rest).2 := by
  induction rest generalizing before places with
  | nil =>
      simp only [List.append_nil] at body
      exact ⟨rfl, body ▸ first⟩
  | cons instruction rest ih =>
      have tail {places : Std.ExtTreeMap Label Nat} (first : FirstPlaces (before ++ [instruction]) places) :=
        ih (by simp [body]) first
      simp only [List.length_append, List.length_singleton] at tail
      simp only [checkAttachments, List.zipIdx_cons, List.filterMap_cons]
      cases label : instruction.label with
      | empty => exact tail (first.skip (by simp [label]))
      | exit =>
          obtain ⟨violations, places⟩ := tail (first.skip (by simp [label]))
          simp only [attachmentViolation?, violations]
          exact ⟨trivial, places⟩
      | named index =>
          have whole : definition.body.findIdx? (fun instruction => instruction.label = .named index) =
              (places[Label.named index]?).or (some before.length) := by
            simp [body, List.findIdx?_append, ← first index, List.findIdx?_cons, label]
          cases found : places[Label.named index]? with
          | none =>
              simp only [attachmentViolation?, whole, found, Option.none_or, Nat.lt_irrefl, if_false]
              exact tail (first.insert label found)
          | some place =>
              have earlier : place < before.length := by
                have there := (first index).symm.trans found
                exact (List.findIdx?_eq_some_iff_getElem.mp there).1
              have known : ∀ other, instruction.label = .named other → places[Label.named other]? ≠ none := by
                intro other same
                cases label.symm.trans same
                exact Option.ne_none_iff_exists'.mpr ⟨place, found⟩
              obtain ⟨violations, places⟩ := tail (first.skip known)
              simp only [attachmentViolation?, whole, found, Option.some_or, earlier, if_true, violations]
              exact ⟨trivial, places⟩

theorem checkTarget?_eq {places : Std.ExtTreeMap Label Nat} (first : FirstPlaces definition.body places)
    (position : Nat) (instruction : Instruction) :
    checkTarget? definition.name places position instruction =
      instruction.target?.bind (definition.targetViolation? position) := by
  cases target : instruction.target? with
  | none => simp [checkTarget?, target]
  | some label =>
      cases label with
      | empty | exit => simp [checkTarget?, target, targetViolation?, Label.isNamed]
      | named index =>
          have placed : places.contains (.named index) =
              definition.body.any fun instruction => instruction.label = .named index := by
            rw [Std.ExtTreeMap.contains_eq_isSome_getElem?, first index, List.findIdx?_isSome]
          simp only [checkTarget?, target, placed, targetViolation?, Label.isNamed, Option.bind_some,
            Bool.true_and, Bool.not_eq_true']
          cases definition.body.any fun instruction => instruction.label = .named index <;> rfl

theorem checkLabels_eq (definition : Definition) : definition.checkLabels = definition.labelViolations := by
  have start : FirstPlaces [] ∅ := by
    intro index
    simp
  obtain ⟨attachments, places⟩ := @checkAttachments_eq definition [] definition.body ∅ rfl start
  simp only [List.length_nil] at attachments places
  simp only [checkLabels, labelViolations, attachments, checkTarget?_eq places]

end Definition

/-! ## Calls -/

theorem Source.getElem?_arities (source : Source) (name : String) :
    source.arities[name]? = source.arity? name := by
  have entries := getElem?_foldl_insert (fun function => function.inputs.length) source.functions ∅ name
  rwa [Std.ExtTreeMap.getElem?_empty, Option.or_none] at entries

namespace Argument

mutual

theorem check_eq (source : Source) (definition : String) (position : Nat) : (argument : Argument) →
    argument.check source.arities definition position =
      argument.calls.filterMap (source.callViolation? definition position)
  | .var name => rfl
  | .call function arguments => by
      simp only [check, calls, checkAll_eq source definition position arguments, source.getElem?_arities,
        List.filterMap_cons, Source.callViolation?]
      cases source.arity? function with
      | none => rfl
      | some expected =>
          dsimp only
          by_cases fits : expected = arguments.length
          · simp only [if_pos fits]
          · simp only [if_neg fits]

theorem checkAll_eq (source : Source) (definition : String) (position : Nat) : (arguments : List Argument) →
    checkAll source.arities definition position arguments =
      (callsAll arguments).filterMap (source.callViolation? definition position)
  | [] => rfl
  | argument :: rest => by
      simp only [checkAll, callsAll, List.filterMap_append, check_eq source definition position argument,
        checkAll_eq source definition position rest]

end

end Argument

theorem Source.checkCalls_eq (source : Source) (definition : Definition) :
    definition.checkCalls source.arities = source.callViolations definition := by
  simp only [Definition.checkCalls, callViolations]
  refine List.flatMap_congr fun place _ => ?_
  cases place.1.call? with
  | none => rfl
  | some call =>
      simp only [Option.toList_some, List.flatMap_singleton]
      exact call.toArgument.check_eq source definition.name place.2

/-! ## All passes -/

namespace Source

theorem check_eq (source : Source) : source.check = source.violations := by
  have start : ∀ bound, 0 < bound → CameUp bound [] ∅ := by
    intro bound positive name
    simp only [List.count_nil]
    constructor
    · intro member
      simp at member
    · omega
  have repeated := @repeatedNames_eq ∅ ∅ [] (source.functions.map Definition.name) (start 1 (by decide))
    (start 2 (by decide))
  simp only [List.length_nil, List.nil_append] at repeated
  simp only [check, violations, duplicateFunctions, repeated, List.map_map, funext Definition.checkLabels_eq,
    funext source.checkCalls_eq]
  rfl

theorem verify_eq (source : Source) :
    source.verify = if source.violations = [] then .ok () else .error source.violations := by
  simp only [verify, check_eq]
  cases source.violations with
  | nil => rfl
  | cons violation rest => rfl

end Source

end CounterMachine
