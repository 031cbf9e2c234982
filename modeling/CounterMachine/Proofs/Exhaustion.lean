import CounterMachine.Proofs.Demands
import CounterMachine.Proofs.Histories
import CounterMachine.Proofs.Supplies
import Mathlib.Data.Set.Card
import Mathlib.Order.Interval.Finset.Nat
set_option autoImplicit false

/-!
# The end of a supply

A supply has those names left that are above its last ones and not taken. Each draw leaves one name less, so a
computation that draws names fails if it needs more than are left. Expansion of code whose calls are known
succeeds if and only if as many names are left as it needs.
-/

namespace CounterMachine

/-! ## Names that are left -/

namespace Names

instance finite_index : Finite UInt32 :=
  Finite.of_injective UInt32.toFin fun _ _ => UInt32.toFin_inj.mp

variable {α : Type} [Ord α] [Std.TransOrd α] [Std.LawfulEqOrd α] {name : UInt32 → α}

theorem ncard_above (last : UInt32) : { index | last < index }.ncard + (last.toNat + 1) = UInt32.size := by
  have image : UInt32.toNat '' { index | last < index } = Finset.Ioo last.toNat UInt32.size := by
    ext value
    simp only [Set.mem_image, Set.mem_ofPred_eq, Finset.coe_Ioo, Set.mem_Ioo]
    constructor
    · rintro ⟨index, above, rfl⟩
      exact ⟨UInt32.lt_iff_toNat_lt.mp above, index.toNat_lt_size⟩
    · rintro ⟨above, bound⟩
      have back : (UInt32.ofNat value).toNat = value := UInt32.toNat_ofNat_of_lt' bound
      refine ⟨.ofNat value, ?_, back⟩
      rw [UInt32.lt_iff_toNat_lt, back]
      exact above
  have bound := last.toNat_lt_size
  rw [← Set.ncard_image_of_injective _ fun _ _ => UInt32.toNat_inj.mp, image, Set.ncard_coe_finset, Nat.card_Ioo]
  omega

theorem ncard_taken_le (injective : Function.Injective name) (set : Std.ExtTreeSet α) :
    { index | name index ∈ set }.ncard ≤ set.size := by
  classical
  have inList : name '' { index | name index ∈ set } ⊆ set.toList.toFinset := by
    rintro _ ⟨index, taken, rfl⟩
    exact List.mem_toFinset.mpr (Std.ExtTreeSet.mem_toList.mpr taken)
  calc { index | name index ∈ set }.ncard
    _ = (name '' { index | name index ∈ set }).ncard := (Set.ncard_image_of_injective _ injective).symm
    _ ≤ (set.toList.toFinset : Set α).ncard := Set.ncard_le_ncard inList
    _ ≤ set.toList.length := by
      rw [Set.ncard_coe_finset]
      exact List.toFinset_card_le _
    _ = set.size := Std.ExtTreeSet.length_toList

/-- Of the names above the last one, at most as many are not left as are taken at all. -/
theorem size_le_ncard_free (injective : Function.Injective name) (set : Std.ExtTreeSet α) (last : UInt32) :
    UInt32.size ≤ { index | last < index ∧ name index ∉ set }.ncard + set.size + (last.toNat + 1) := by
  have parts := Set.ncard_le_ncard_sdiff_add_ncard { index | last < index } { index | name index ∈ set }
  have above := ncard_above last
  have taken := ncard_taken_le injective set
  have same : { index | last < index } \ { index | name index ∈ set } =
    { index | last < index ∧ name index ∉ set } := rfl
  rw [same] at parts
  omega

end Names

namespace Generator

variable {generator other : Generator} {supply : Supply} {index : UInt32}

/-- The name that is given out is the only one that is not left. -/
theorem free_give (least : IsLeast (generator.free supply) index) :
    generator.free (generator.give supply index) = generator.free supply \ {index} := by
  obtain ⟨⟨after, unused⟩, first⟩ := least
  have last : generator.last (generator.give supply index).names = index := by cases generator <;> rfl
  have injective {other : UInt32} (same : generator.name index = generator.name other) : index = other := by
    cases generator <;> cases same <;> rfl
  ext other
  simp only [free, last, mem_taken_give, not_or, Set.mem_ofPred_eq, Set.mem_sdiff, Set.mem_singleton_iff]
  constructor
  · rintro ⟨above, _, untaken⟩
    exact ⟨⟨UInt32.lt_trans after above, untaken⟩, (UInt32.ne_of_lt above).symm⟩
  · rintro ⟨⟨above, untaken⟩, different⟩
    have notBelow : index ≤ other := first ⟨above, untaken⟩
    exact ⟨UInt32.lt_of_le_of_ne notBelow (Ne.symm different), fun same => different (injective same).symm, untaken⟩

/-- The other generator keeps its names. -/
theorem free_give_of_ne (different : other ≠ generator) :
    other.free (generator.give supply index) = other.free supply := by
  ext index
  cases generator with
  | label =>
      cases other with
      | label => exact absurd rfl different
      | work => simp [free, last, give, name]
  | work =>
      cases other with
      | label => simp [free, last, give, name]
      | work => exact absurd rfl different

/-- One name of a generator. -/
def one : Generator → Quota
  | label => ⟨1, 0⟩
  | work => ⟨0, 1⟩

end Generator

/-- How many labels and how many work variables a supply has left. -/
noncomputable def Supply.free (supply : Supply) : Quota where
  labels := (Generator.label.free supply).ncard
  works := (Generator.work.free supply).ncard

theorem Generator.supply_free_give {generator : Generator} {supply : Supply} {index : UInt32}
    (least : IsLeast (generator.free supply) index) :
    supply.free = generator.one + (generator.give supply index).free := by
  have spent : (generator.free supply).ncard = 1 + (generator.free (generator.give supply index)).ncard := by
    rw [free_give least, Nat.add_comm, Set.ncard_sdiff_singleton_add_one least.1]
  cases generator with
  | label =>
      have kept : work.free (label.give supply index) = work.free supply := free_give_of_ne nofun
      exact Quota.ext spent (by simp [Supply.free, kept, one])
  | work =>
      have kept : label.free (work.give supply index) = label.free supply := free_give_of_ne nofun
      exact Quota.ext (by simp [Supply.free, kept, one]) spent

/-- A supply has enough names left, if the last names, the taken names and the names that are needed do not come
to the number of indices. -/
theorem Supply.le_free {supply : Supply} {quota : Quota}
    (labels : supply.names.label.toNat + supply.labels.size + quota.labels < UInt32.size)
    (works : supply.names.work.toNat + supply.vars.size + quota.works < UInt32.size) : quota ≤ supply.free := by
  have someLabels : UInt32.size ≤ supply.free.labels + supply.labels.size + (supply.names.label.toNat + 1) :=
    Names.size_le_ncard_free (fun _ _ => Label.named.inj) supply.labels supply.names.label
  have someWorks : UInt32.size ≤ supply.free.works + supply.vars.size + (supply.names.work.toNat + 1) :=
    Names.size_le_ncard_free (fun _ _ => Variable.work.inj) supply.vars supply.names.work
  exact ⟨by omega, by omega⟩

/-! ## What computations take -/

namespace Fresh

variable {α β : Type} {allowed : Failure → Prop} {supply : Supply} {own quota : Quota}

/-- A computation takes a number of names from a supply. It fails as allowed, or because fewer are left. -/
structure Takes (allowed : Failure → Prop) (quota : Quota) (supply : Supply) (computation : Fresh α) : Prop where
  spends : ∀ {value next}, computation supply = .ok (value, next) → supply.free = quota + next.free
  fails : ∀ {failure}, computation supply = .error failure →
    allowed failure ∨ failure = .namesExhausted ∧ ¬quota ≤ supply.free

namespace Takes

theorem pure (value : α) : Takes allowed 0 supply (pure value : Fresh α) where
  spends := by
    intro result next returned
    obtain ⟨_, rfl⟩ := pure_ok returned
    exact (zero_add _).symm
  fails := nofun

/-- The names of a sequence are those of its first computation and those of the second one. -/
theorem bind {first : Fresh α} {second : α → Fresh β} (takes : Takes allowed own supply first)
    (enough : own ≤ quota)
    (later : ∀ {value middle}, first supply = .ok (value, middle) →
      ∃ rest, quota = own + rest ∧ Takes allowed rest middle (second value)) :
    Takes allowed quota supply (first >>= second) where
  spends := by
    intro value next returned
    obtain ⟨middle, between, ran, returned⟩ := bind_ok returned
    obtain ⟨rest, rfl, others⟩ := later ran
    rw [takes.spends ran, others.spends returned, add_assoc]
  fails := by
    intro failure failed
    rcases bind_error failed with failed | ⟨value, middle, ran, failed⟩
    · rcases takes.fails failed with isAllowed | ⟨rfl, short⟩
      · exact .inl isAllowed
      · exact .inr ⟨rfl, fun room => short ⟨enough.1.trans room.1, enough.2.trans room.2⟩⟩
    · obtain ⟨rest, rfl, others⟩ := later ran
      rcases others.fails failed with isAllowed | ⟨rfl, short⟩
      · exact .inl isAllowed
      · refine .inr ⟨rfl, fun room => short ?_⟩
        rw [takes.spends ran] at room
        exact ⟨Nat.le_of_add_le_add_left room.1, Nat.le_of_add_le_add_left room.2⟩

theorem of_map {f : α → β} {computation : Fresh α} (takes : Takes allowed quota supply (f <$> computation)) :
    Takes allowed quota supply computation where
  spends := by
    intro value next returned
    have mapped : (f <$> computation) supply = .ok (f value, next) := by
      change (computation supply).map _ = _
      rw [returned]
      rfl
    exact takes.spends mapped
  fails := by
    intro failure failed
    have mapped : (f <$> computation) supply = .error failure := by
      change (computation supply).map _ = _
      rw [failed]
      rfl
    exact takes.fails mapped

/-- A generator takes one name, unless none is left. -/
theorem fresh (generator : Generator) : Takes allowed generator.one supply generator.fresh := by
  rcases generator.draw_cases supply with ⟨index, least, drawn⟩ | ⟨none, ended⟩
  · constructor
    · intro value next returned
      rw [generator.fresh_eq, drawn] at returned
      cases returned
      exact Generator.supply_free_give least
    · intro failure failed
      rw [generator.fresh_eq, drawn] at failed
      cases failed
  · constructor
    · intro value next returned
      rw [generator.fresh_eq, ended] at returned
      cases returned
    · intro failure failed
      rw [generator.fresh_eq, ended] at failed
      cases failed
      refine .inr ⟨rfl, fun room => ?_⟩
      cases generator with
      | label => simp [Generator.one, Quota.le_iff, Supply.free, none] at room
      | work => simp [Generator.one, Quota.le_iff, Supply.free, none] at room

theorem label : Takes allowed ⟨1, 0⟩ supply Fresh.label :=
  of_map (fresh .label)

theorem work : Takes allowed ⟨0, 1⟩ supply Fresh.work :=
  of_map (fresh .work)

/-- The members of a list take what they need one after the other. -/
theorem mapM {action : α → Fresh β} {need : α → Quota} {members : List α}
    (grows : ∀ {member before value after}, action member before = .ok (value, after) → before.taken ⊆ after.taken)
    (each : ∀ member ∈ members, ∀ later : Supply, supply.taken ⊆ later.taken →
      Takes allowed (need member) later (action member)) :
    Takes allowed (members.map need).sum supply (members.mapM action) := by
  induction members generalizing supply with
  | nil =>
      rw [List.mapM_nil]
      exact pure []
  | cons member rest ih =>
      rw [List.mapM_cons, List.map_cons, List.sum_cons]
      refine (each member List.mem_cons_self supply subset_rfl).bind (Quota.le_add_right _ _) fun ran => ?_
      refine ⟨_, rfl, ?_⟩
      have others := ih fun other inRest later taken =>
        each other (List.mem_cons_of_mem _ inRest) later ((grows ran).trans taken)
      refine others.bind (Quota.le_refl _) fun _ => ⟨0, (add_zero _).symm, pure _⟩

end Takes

/-! ## Computations that draw one name after the other -/

/-- A property of drawing one name, and of drawing nothing, that is kept by sequences of computations. It
depends on the number of names. -/
structure Composed (P : ∀ {α : Type}, Quota → Fresh α → Prop) : Prop where
  pure : ∀ {α : Type} (value : α), P 0 (Pure.pure value)
  bind : ∀ {α β : Type} {own rest : Quota} {first : Fresh α} {second : α → Fresh β}, P own first →
    (∀ value, P rest (second value)) → P (own + rest) (first >>= second)
  label : P ⟨1, 0⟩ Fresh.label
  work : P ⟨0, 1⟩ Fresh.work

theorem Composed.mapM {P : ∀ {α : Type}, Quota → Fresh α → Prop} (composed : Composed P) {action : α → Fresh β}
    (need : α → Quota) {members : List α} (each : ∀ member ∈ members, P (need member) (action member)) :
    P (members.map need).sum (members.mapM action) := by
  induction members with
  | nil =>
      rw [List.mapM_nil]
      exact composed.pure []
  | cons member rest ih =>
      rw [List.mapM_cons, List.map_cons, List.sum_cons, ← add_zero (rest.map need).sum]
      refine composed.bind (each member List.mem_cons_self) fun _ => ?_
      refine composed.bind (ih fun other inRest => each other (List.mem_cons_of_mem _ inRest)) fun _ => ?_
      exact composed.pure _

theorem Takes.composed (allowed : Failure → Prop) :
    Composed fun {α} quota (computation : Fresh α) => ∀ supply, Takes allowed quota supply computation where
  pure := fun value _ => .pure value
  bind := fun first later supply =>
    (first supply).bind (Quota.le_add_right _ _) fun _ => ⟨_, rfl, later _ _⟩
  label := fun _ => .label
  work := fun _ => .work

end Fresh

/-! ## Expansion -/

section Expansion

open Inlining

variable {registry : Registry}

namespace Fresh.Composed

variable {P : ∀ {α : Type}, Quota → Fresh α → Prop}

theorem draw (composed : Composed P) (callee : Routine) : P (frameDemand callee) (Frame.draw callee) := by
  have works (members : List Variable) : P (members.length • ⟨0, 1⟩) (members.mapM fun _ => Fresh.work) := by
    simpa using composed.mapM (fun _ => ⟨0, 1⟩) fun _ (_ : _ ∈ members) => composed.work
  have labels (members : List Label) : P (members.length • ⟨1, 0⟩) (members.mapM fun _ => Fresh.label) := by
    simpa using composed.mapM (fun _ => ⟨1, 0⟩) fun _ (_ : _ ∈ members) => composed.label
  have total : frameDemand callee = ⟨0, 1⟩ + (callee.inputs.length • ⟨0, 1⟩ +
      ((localVars callee).length • ⟨0, 1⟩ + ((localLabels callee).length • ⟨1, 0⟩ +
        if jumpsToExit callee then ⟨1, 0⟩ + 0 else 0))) := by
    unfold frameDemand
    ext <;> cases jumpsToExit callee <;> simp <;> omega
  rw [total]
  unfold Frame.draw
  refine composed.bind composed.work fun _ => ?_
  refine composed.bind (works callee.inputs) fun _ => ?_
  refine composed.bind (works (localVars callee)) fun _ => ?_
  refine composed.bind (labels (localLabels callee)) fun _ => ?_
  split
  · exact composed.bind composed.label fun _ => composed.pure _
  · exact composed.pure _

theorem inline (composed : Composed P) {call : Call} {callee : Routine}
    (found : registry[call.function]? = some callee)
    (arity : callee.inputs.length = call.arguments.length) (subject : Variable) (use : Use) :
    P (frameDemand callee) (inline registry subject call use) := by
  unfold Inlining.inline
  simp only [found, if_pos arity]
  rw [← add_zero (frameDemand callee)]
  exact composed.bind (composed.draw callee) fun _ => composed.pure _

/-- One round of expansion draws its names one by one, if the function of a composition is known. -/
theorem expansion (composed : Composed P) {operation : Operation}
    (known : ∀ call, operation.call? = some call → ∃ callee, registry[call.function]? = some callee ∧
      callee.inputs.length = call.arguments.length) :
    P (operation.demand registry 1) (operation.expansion registry) := by
  have composition (subject : Variable) (call : Call) (use : Use)
      (calls : operation.call? = some call) :
      P ((use.composition subject call).demand registry 1) (Inlining.inline registry subject call use) := by
    obtain ⟨callee, found, arity⟩ := known call calls
    rw [Operation.demand_one_composition found]
    exact composed.inline found arity subject use
  cases operation with
  | increase | decrease | jumpNotZero | neutral => exact composed.pure _
  | zeroVariable | constantAssignment =>
      change P (⟨1, 0⟩ + (⟨1, 0⟩ + (⟨0, 1⟩ + 0))) _
      exact composed.bind composed.label fun _ => composed.bind composed.label fun _ =>
        composed.bind composed.work fun _ => composed.pure _
  | gotoLabel target =>
      change P (⟨0, 1⟩ + 0) _
      exact composed.bind composed.work fun _ => composed.pure _
  | assignment subject source =>
      simp only [Operation.expansion, Rules.copy, Operation.demand]
      split
      · exact composed.pure _
      · change P (⟨1, 0⟩ + (⟨1, 0⟩ + (⟨1, 0⟩ + (⟨0, 1⟩ + 0)))) _
        exact composed.bind composed.label fun _ => composed.bind composed.label fun _ =>
          composed.bind composed.label fun _ => composed.bind composed.work fun _ => composed.pure _
  | jumpZero subject target =>
      change P (⟨1, 0⟩ + 0) _
      exact composed.bind composed.label fun _ => composed.pure _
  | jumpEqualConstant subject value target =>
      change P (⟨1, 0⟩ + (⟨0, 1⟩ + 0)) _
      exact composed.bind composed.label fun _ => composed.bind composed.work fun _ => composed.pure _
  | jumpEqualVariable subject other target =>
      change P (⟨1, 0⟩ + (⟨1, 0⟩ + (⟨1, 0⟩ + (⟨0, 1⟩ + (⟨0, 1⟩ + 0))))) _
      exact composed.bind composed.label fun _ => composed.bind composed.label fun _ =>
        composed.bind composed.label fun _ => composed.bind composed.work fun _ =>
        composed.bind composed.work fun _ => composed.pure _
  | quote subject call => exact composition subject call .assign rfl
  | jumpEqualFunction subject call target => exact composition subject call (.compare target) rfl

end Fresh.Composed

theorem Inlining.inline_takes {call : Call} {callee : Routine} (found : registry[call.function]? = some callee)
    (arity : callee.inputs.length = call.arguments.length) (subject : Variable) (use : Use) (supply : Supply) :
    Fresh.Takes (fun _ => False) (frameDemand callee) supply (inline registry subject call use) :=
  (Fresh.Takes.composed _).inline found arity subject use supply

/-- Operations whose calls fit, and which one round of expansion does not leave. -/
structure Registry.Expands (registry : Registry) (good : Operation → Prop) : Prop where
  fits : ∀ {operation}, good operation → ∀ call, operation.call? = some call → call.Fits registry
  unfolds : ∀ {operation draft body}, good operation → operation.StandsFor registry draft body →
    ∀ instruction ∈ body, good instruction.operation

theorem Registry.WellFormed.expands (wellFormed : registry.WellFormed) :
    registry.Expands fun operation => ∀ call, operation.call? = some call → call.Fits registry where
  fits := fun fits => fits
  unfolds := fun fits stands =>
    stands.calls_fit (fun _ found => (wellFormed found).calls) fun {call} => fits call

variable {good : Operation → Prop} {allowed : Failure → Prop} {routine : Routine}

section Failures

variable (covered : ∀ {name : String} {callee : Routine}, registry[name]? = some callee → callee.Covered)
  (takes : ∀ {operation}, good operation → ∀ supply,
    Fresh.Takes allowed (operation.demand registry 1) supply (operation.expansion registry))
  (unfolds : ∀ {operation draft body}, good operation → operation.StandsFor registry draft body →
    ∀ instruction ∈ body, good instruction.operation)

include covered takes unfolds

/-- Some rounds take the names that the instruction needs, and fail as one round may fail. -/
theorem Instruction.derive_takes (rounds : Nat) {instruction : Instruction} (member : good instruction.operation)
    {supply : Supply} (taken : ∀ name ∈ instruction.operation.vars, .var name ∈ supply.taken) :
    Fresh.Takes allowed (instruction.operation.demand registry rounds) supply
      (instruction.derive registry rounds) := by
  induction rounds generalizing instruction supply with
  | zero =>
      rw [Operation.demand_zero]
      exact .pure _
  | succ rounds ih =>
      cases basic : instruction.isBasic with
      | true =>
          rw [derive_basic basic, Operation.demand_of_basic _ basic]
          exact .pure _
      | false =>
          rw [derive_synthetic basic]
          refine (takes member supply).bind (Operation.demand_one_le _ _ _) fun {body middle} expanded => ?_
          obtain ⟨draft, stands, draws⟩ := Operation.expansion_ok basic expanded
          obtain ⟨unused, blockTaken⟩ := stands.vars_taken covered draws taken
          refine ⟨codeDemand registry rounds (labelFirst instruction.label body), ?_, ?_⟩
          · rw [codeDemand_labelFirst]
            exact stands.demand_succ covered draws.avoids.works unused rounds
          · have children : ∀ child ∈ labelFirst instruction.label body, ∀ later : Supply,
                middle.taken ⊆ later.taken →
                Fresh.Takes allowed (child.operation.demand registry rounds) later
                  (child.derive registry rounds) := by
              intro child inBlock later kept
              obtain ⟨original, inBody, same⟩ := exists_of_mem_labelFirst inBlock
              exact ih (same ▸ unfolds member stands original inBody) fun name occurs =>
                kept (blockTaken original inBody name (same ▸ occurs))
            exact (Fresh.Takes.mapM derive_grows children).bind (Quota.le_refl _) fun _ =>
              ⟨0, (add_zero _).symm, .pure _⟩

/-- An expansion of a routine succeeds if its names are left, fails as its instructions may, or fails for want
of names. -/
theorem Routine.expandSelected_cases (members : ∀ instruction ∈ routine.instructions, good instruction.operation)
    (rounds : Nat) (selected : Nat → Bool) :
    ((∃ next, routine.expandSelected registry rounds selected = .ok next) ∧
        routine.demandSelected registry rounds selected ≤ routine.supply.free) ∨
      (∃ failure, allowed failure ∧ routine.expandSelected registry rounds selected = .error failure) ∨
      (routine.expandSelected registry rounds selected = .error .namesExhausted ∧
        ¬routine.demandSelected registry rounds selected ≤ routine.supply.free) := by
  have all : Fresh.Takes allowed (routine.demandSelected registry rounds selected) routine.supply
      (routine.derivations registry rounds selected) := by
    refine Fresh.Takes.mapM ?_ fun (instruction, position) member later kept => ?_
    · intro (instruction, position) before tree after derived
      dsimp only at derived
      split at derived
      · exact Instruction.derive_grows derived
      · obtain ⟨_, rfl⟩ := Fresh.pure_ok derived
        exact subset_rfl
    · have inCode : instruction ∈ routine.instructions :=
        List.mem_of_getElem? (List.mem_zipIdx_iff_getElem?.mp member)
      dsimp only
      split
      · exact Instruction.derive_takes covered takes unfolds rounds (members instruction inCode)
          fun name occurs => kept (mem_varsInUse inCode occurs)
      · exact .pure _
  cases derived : (routine.derivations registry rounds selected).run routine.supply with
  | ok pair =>
      left
      rw [expandSelected, derived]
      refine ⟨⟨_, rfl⟩, ?_⟩
      rw [all.spends derived]
      exact Quota.le_add_right _ _
  | error failure =>
      right
      rw [expandSelected, derived]
      rcases all.fails derived with isAllowed | ⟨rfl, short⟩
      · exact .inl ⟨failure, isAllowed, rfl⟩
      · exact .inr ⟨rfl, short⟩

end Failures

/-- Expansion of a routine inside such a class succeeds if its names are left, and fails for want of names
otherwise. -/
theorem Routine.expandSelected_within (expands : registry.Expands good)
    (covered : ∀ {name : String} {callee : Routine}, registry[name]? = some callee → callee.Covered)
    (members : ∀ instruction ∈ routine.instructions, good instruction.operation) (rounds : Nat)
    (selected : Nat → Bool) :
    ((∃ next, routine.expandSelected registry rounds selected = .ok next) ∧
        routine.demandSelected registry rounds selected ≤ routine.supply.free) ∨
      (routine.expandSelected registry rounds selected = .error .namesExhausted ∧
        ¬routine.demandSelected registry rounds selected ≤ routine.supply.free) := by
  have takes {operation : Operation} (inClass : good operation) (supply : Supply) :
      Fresh.Takes (fun _ => False) (operation.demand registry 1) supply (operation.expansion registry) :=
    (Fresh.Takes.composed _).expansion (fun call calls => (expands.fits inClass call calls).callee) supply
  rcases expandSelected_cases covered takes expands.unfolds members rounds selected with
    success | ⟨_, impossible, _⟩ | short
  · exact .inl success
  · exact impossible.elim
  · exact .inr short

/-- Expansion of a routine whose calls are known succeeds if its names are left, and fails for want of names
otherwise. -/
theorem Routine.expandSelected_safe (wellFormed : registry.WellFormed)
    (fit : CallsFit registry routine.instructions) (rounds : Nat) (selected : Nat → Bool) :
    (routine.demandSelected registry rounds selected ≤ routine.supply.free →
      ∃ next, routine.expandSelected registry rounds selected = .ok next) ∧
    (¬routine.demandSelected registry rounds selected ≤ routine.supply.free →
      routine.expandSelected registry rounds selected = .error .namesExhausted) := by
  rcases expandSelected_within wellFormed.expands (fun found => (wellFormed found).covered) fit rounds selected with
    ⟨success, room⟩ | ⟨failed, short⟩
  · exact ⟨fun _ => success, fun short => (short room).elim⟩
  · exact ⟨fun room => (short room).elim, fun _ => failed⟩

end Expansion

end CounterMachine
