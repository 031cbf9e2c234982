import CounterMachine.Proofs.BlockRuns
import CounterMachine.Proofs.CallRuns
set_option autoImplicit false

/-!
# Simulation of an instruction by its block

Code in which one instruction is replaced by its block halts if and only if the original code halts. A step
of the original is matched by one or more steps, after which the stores agree outside the names that were
drawn for the block. The work variables in which a block moves counts are 0 whenever the block is not being
run.
-/

namespace CounterMachine

open Inlining

/-! ## Blocks in general -/

namespace Operation

/-- The work variables of a block that moves counts are 0. -/
def Idle (draft : Draft) (store : Store) : Operation → Prop
  | constantAssignment _ _ | assignment _ _ => ∀ name ∈ draft.works, store name = 0
  | _ => True

theorem Idle.of_zeros {draft : Draft} {store : Store} {operation : Operation}
    (zeros : ∀ name ∈ draft.works, store name = 0) : operation.Idle draft store := by
  cases operation with
  | constantAssignment | assignment => exact zeros
  | _ => trivial

theorem Idle.congr {draft : Draft} {store other : Store} {operation : Operation}
    (idle : operation.Idle draft store) (same : ∀ name ∈ draft.works, other name = store name) :
    operation.Idle draft other := by
  cases operation with
  | constantAssignment | assignment => exact fun name drawn => (same name drawn).trans (idle name drawn)
  | _ => trivial

namespace StandsFor

variable {registry : Registry} {operation : Operation} {draft : Draft} {body code : List Instruction}
  {start : Nat} {store : Store}

theorem inlined {subject : Variable} {call : Call} {use : Use} {callee : Routine} {frame : Frame}
    (wellFormed : registry.WellFormed) (found : registry[call.function]? = some callee)
    (arity : callee.inputs.length = call.arguments.length) (fits : frame.Fits callee)
    {used : Set Name} (avoids : frame.draft.Avoids used)
    (mentioned : ∀ name ∈ (use.composition subject call).vars, .var name ∈ used)
    (holds : Holds code start (frame.block subject callee call.arguments use)) :
    Inlined registry code start callee frame subject call.arguments use where
  wellFormed := wellFormed found
  fits := fits
  arity := arity
  named := avoids.named
  works := avoids.works
  holds := holds
  fresh := by
    have parts : (use.composition subject call).vars = subject :: Argument.varsAll call.arguments := by
      cases use <;> rfl
    rw [parts] at mentioned
    intro name drawn
    have unused := avoids.unused (.var name) (Draft.var_mem_names.mpr drawn)
    constructor
    · intro same
      exact unused (mentioned name (same ▸ List.mem_cons_self))
    · intro occurs
      exact unused (mentioned name (List.mem_cons_of_mem _ occurs))

/-- A block does what its operation does. -/
theorem runs (stands : operation.StandsFor registry draft body) (wellFormed : registry.WellFormed)
    {used : Set Name} (avoids : draft.Avoids used) (mentioned : ∀ name ∈ operation.vars, .var name ∈ used)
    (holds : Holds code start body) {answer : UInt64}
    (answered : operation.Answered registry store answer) (idle : operation.Idle draft store)
    {final : Option Nat}
    (leads : Leads code (start + (body.length - 1)) (operation.effect answer store).1 final) :
    ∃ last, Advances registry code start store final last ∧
      Agree draft.works (operation.effect answer store).2 last ∧ operation.Idle draft last := by
  have fresh : ∀ {name other}, name ∈ draft.works → other ∈ operation.vars → name ≠ other := by
    intro name other drawn occurs same
    exact avoids.unused (.var name) (Draft.var_mem_names.mpr drawn) (same ▸ mentioned other occurs)
  cases stands with
  | zero =>
      obtain ⟨last, route, agree⟩ := holds.zero (avoids.named _ (by simp)) (avoids.named _ (by simp))
        (fresh (by simp) (by simp [vars]))
      cases leads
      exact ⟨last, route.advances (by omega), agree, trivial⟩
  | goto =>
      obtain ⟨last, route, agree⟩ := holds.goto leads
      exact ⟨last, route, agree, trivial⟩
  | @constant subject value pump after count =>
      have bottom : (Block.constant subject value pump after count).length - 1 = value.toNat + 6 := by
        simp [Block.constant]
      obtain ⟨last, route, agree, zero⟩ := holds.constant (avoids.named _ (by simp))
        (avoids.named _ (by simp)) (fresh (by simp) (by simp [vars])) (idle _ (by simp))
      rw [bottom] at leads
      cases leads
      exact ⟨last, route, agree, by simpa [Idle] using zero⟩
  | copySelf =>
      cases leads
      refine ⟨store, holds.next 0 rfl rfl rfl (.refl _ _), ?_, by simp [Idle]⟩
      rw [effect, Function.update_eq_self]
      exact .refl _ _
  | copy different =>
      obtain ⟨last, route, agree, zero⟩ := holds.copy (avoids.named _ (by simp))
        (avoids.named _ (by simp)) (avoids.named _ (by simp)) different
        (fresh (by simp) (by simp [vars])) (fresh (by simp) (by simp [vars])) (idle _ (by simp))
      cases leads
      exact ⟨last, route, agree, by simpa [Idle] using zero⟩
  | jumpIfZero =>
      exact ⟨store, holds.jumpIfZero (avoids.named _ (by simp)) leads, .refl _ _, trivial⟩
  | @jumpIfConstant subject value target different rest =>
      have bottom : (Block.jumpIfConstant subject value target different rest).length - 1 =
          2 * value.toNat + 3 := by
        simp [Block.jumpIfConstant, Nat.mul_comm]
      rw [bottom] at leads
      obtain ⟨last, route, agree⟩ := holds.jumpIfConstant (avoids.named _ (by simp)) leads
      exact ⟨last, route, agree, trivial⟩
  | @jumpIfEqual subject other target again check different left right =>
      have apart : left ≠ right := by simpa using avoids.works
      obtain ⟨last, route, agree⟩ := holds.jumpIfEqual (avoids.named _ (by simp))
        (avoids.named _ (by simp)) (avoids.named _ (by simp)) apart
        (fresh (by simp) (by simp [vars])) leads
      exact ⟨last, route, agree, trivial⟩
  | composition subject call use callee frame composed found arity fits =>
      subst composed
      have inlined := inlined wellFormed found arity fits avoids mentioned holds
      obtain ⟨last, route, agree⟩ := inlined.runs found answered leads
      refine ⟨last, route, agree, ?_⟩
      cases use <;> trivial

theorem answered_of_halts (stands : operation.StandsFor registry draft body)
    (wellFormed : registry.WellFormed) {used : Set Name} (avoids : draft.Avoids used)
    (mentioned : ∀ name ∈ operation.vars, .var name ∈ used) (holds : Holds code start body)
    (distinct : (attached code).Nodup) {count : Nat} {last : Store}
    (halts : Halts registry code count (some start) store last) :
    ∃ answer, operation.Answered registry store answer := by
  cases stands with
  | composition subject call use callee frame composed found arity fits =>
      subst composed
      exact (inlined wellFormed found arity fits avoids mentioned holds).answered_of_halts distinct found
        halts
  | _ => exact ⟨0, nofun⟩

end StandsFor

end Operation

/-! ## Stores that agree -/

namespace Agree

variable {hidden : List Variable} {store copy : Store} {operation : Operation}

theorem mirrors (agree : Agree hidden store copy) (visible : ∀ name ∈ operation.vars, name ∉ hidden) :
    Mirrors operation.vars id store copy :=
  fun name occurs => (agree name (visible name occurs)).symm

theorem effect (agree : Agree hidden store copy) (visible : ∀ name ∈ operation.vars, name ∉ hidden)
    (answer : UInt64) :
    (operation.effect answer copy).1 = (operation.effect answer store).1 ∧
      Agree hidden (operation.effect answer store).2 (operation.effect answer copy).2 := by
  obtain ⟨flow, mirrored⟩ := Operation.effect_mapVars (agree.mirrors visible)
    (fun _ _ _ _ same => same) (fun _ => id) answer
  rw [Operation.mapVars_id] at flow mirrored
  refine ⟨flow, ?_⟩
  intro name inSight
  by_cases occurs : name ∈ operation.vars
  · exact (mirrored name occurs).symm
  · rw [Operation.effect_frame _ _ _ occurs, Operation.effect_frame _ _ _ occurs]
    exact agree name inSight

theorem answered_iff {registry : Registry} (agree : Agree hidden store copy)
    (visible : ∀ name ∈ operation.vars, name ∉ hidden) {answer : UInt64} :
    operation.Answered registry copy answer ↔ operation.Answered registry store answer := by
  have renamed := @Operation.answered_mapVars _ _ _ _ _ registry (agree.mirrors visible) (fun _ => id)
    answer
  rwa [Operation.mapVars_id] at renamed

end Agree

/-! ## One block in the place of an instruction -/

/-- Where the instruction at a position stands after the block has been put in. -/
def shifted (place extra position : Nat) : Nat :=
  if position ≤ place then position else position + extra

/-- Where the instruction at a position, or the block in its place, ends. -/
def ending (place extra position : Nat) : Nat :=
  if position < place then position else position + extra

theorem shifted_succ (place extra position : Nat) :
    shifted place extra (position + 1) = ending place extra position + 1 := by
  unfold shifted ending
  split <;> split <;> omega

theorem ending_of_ne {place extra position : Nat} (other : position ≠ place) :
    ending place extra position = shifted place extra position := by
  unfold shifted ending
  split <;> split <;> omega

/-- Unfolded code has a block in the place of one instruction of the original code. -/
structure Replaces (registry : Registry) (original unfolded : List Instruction) (place extra : Nat)
    (instruction : Instruction) (draft : Draft) (body : List Instruction) : Prop where
  stands : instruction.operation.StandsFor registry draft body
  avoids : draft.Avoids (namesIn original)
  here : original[place]? = some instruction
  length : unfolded.length = original.length + extra
  block : body.length = extra + 1
  holds : Holds unfolded place body
  label : (unfolded[place]?).map Instruction.label = some instruction.label
  others : ∀ {position}, position ≠ place →
    unfolded[shifted place extra position]? = original[position]?

theorem Replaces.ofUnfold {registry : Registry} {before rest body : List Instruction}
    {instruction : Instruction} {draft : Draft}
    (stands : instruction.operation.StandsFor registry draft body)
    (avoids : draft.Avoids (namesIn (before ++ instruction :: rest))) :
    Replaces registry (before ++ instruction :: rest)
      (before ++ (labelFirst instruction.label body ++ rest)) before.length (body.length - 1) instruction
      draft body := by
  obtain ⟨first, others, rfl⟩ := stands.starts
  have block : labelFirst instruction.label (.plain first :: others) =
      ⟨instruction.label, first⟩ :: others := rfl
  rw [block]
  refine ⟨stands, avoids, by simp, ?_, rfl, ?_, by simp, ?_⟩
  · simp
    omega
  · intro offset inner found
    cases offset with
    | zero =>
        cases found
        exact ⟨⟨instruction.label, first⟩, by simp, rfl, nofun⟩
    | succ offset =>
        rw [List.getElem?_cons_succ] at found
        obtain ⟨within, _⟩ := List.getElem?_eq_some_iff.mp found
        refine ⟨inner, ?_, rfl, fun _ => rfl⟩
        rw [List.getElem?_append_right (Nat.le_add_right _ _), Nat.add_sub_cancel_left,
          List.cons_append, List.getElem?_cons_succ, List.getElem?_append_left within, found]
  · intro position other
    unfold shifted
    rcases Nat.lt_or_gt_of_ne other with earlier | later
    · rw [if_pos (Nat.le_of_lt earlier), List.getElem?_append_left earlier,
        List.getElem?_append_left earlier]
    · obtain ⟨offset, rfl⟩ := Nat.exists_eq_add_of_lt later
      have inOriginal : before.length + offset + 1 - before.length = offset + 1 := by omega
      have inUnfolded : before.length + offset + 1 + others.length - before.length =
          others.length + offset + 1 := by
        omega
      rw [if_neg (by omega), List.length_cons, Nat.add_sub_cancel, List.getElem?_append_right (by omega),
        inUnfolded, List.cons_append, List.getElem?_cons_succ,
        List.getElem?_append_right (Nat.le_add_right _ _), Nat.add_sub_cancel_left,
        List.getElem?_append_right (by omega), inOriginal, List.getElem?_cons_succ]

/-- A store of the unfolded code follows one of the original code. -/
structure Follows (operation : Operation) (draft : Draft) (store copy : Store) : Prop where
  agree : Agree draft.works store copy
  idle : operation.Idle draft copy

namespace Replaces

variable {registry : Registry} {original unfolded body : List Instruction} {place extra : Nat}
  {instruction : Instruction} {draft : Draft} {store copy : Store}

theorem leads (replaces : Replaces registry original unfolded place extra instruction draft body)
    {position : Nat} {flow : Flow} {next : Option Nat} (leads : Leads original position flow next) :
    Leads unfolded (ending place extra position) flow (next.map (shifted place extra)) := by
  cases leads with
  | next =>
      rw [Option.map_some, shifted_succ]
      exact .next
  | empty =>
      rw [Option.map_some, shifted_succ]
      exact .empty
  | exit => exact .exit
  | @named target index destination found label =>
      by_cases special : target = place
      · subst special
        rw [replaces.here] at found
        cases found
        obtain ⟨first, present, same⟩ := Option.map_eq_some_iff.mp replaces.label
        rw [Option.map_some, shifted, if_pos (Nat.le_refl _)]
        exact .named present (same.trans label)
      · rw [← replaces.others special] at found
        exact .named found label

theorem visible (replaces : Replaces registry original unfolded place extra instruction draft body)
    {inner : Instruction} (member : inner ∈ original) :
    ∀ name ∈ inner.operation.vars, name ∉ draft.works := by
  intro name occurs drawn
  exact replaces.avoids.unused (.var name) (Draft.var_mem_names.mpr drawn)
    ⟨inner, member, Instruction.var_mem_names.mpr occurs⟩

theorem mentioned (replaces : Replaces registry original unfolded place extra instruction draft body) :
    ∀ name ∈ instruction.operation.vars, .var name ∈ namesIn original := by
  intro name occurs
  exact ⟨instruction, List.mem_of_getElem? replaces.here, Instruction.var_mem_names.mpr occurs⟩

/-- A move of the original is matched by one or more moves. -/
theorem advances (replaces : Replaces registry original unfolded place extra instruction draft body)
    (wellFormed : registry.WellFormed) (follows : Follows instruction.operation draft store copy)
    {position : Nat} {next : Option Nat} {after : Store}
    (moves : Moves registry original position store next after) :
    ∃ copyAfter, Advances registry unfolded (shifted place extra position) copy
        (next.map (shifted place extra)) copyAfter ∧
      Follows instruction.operation draft after copyAfter := by
  cases moves with
  | @intro inner answer flow found answered acts led =>
      have led := replaces.leads led
      have member := List.mem_of_getElem? found
      have visible := replaces.visible member
      have copyAnswered := (follows.agree.answered_iff visible).mpr answered
      obtain ⟨sameFlow, agree⟩ := follows.agree.effect visible answer
      rw [acts] at sameFlow agree
      change _ = flow at sameFlow
      by_cases special : position = place
      · subst special
        rw [replaces.here] at found
        cases found
        rw [ending, if_neg (Nat.lt_irrefl _), ← sameFlow] at led
        obtain ⟨copyAfter, route, blockAgree, idle⟩ := replaces.stands.runs wellFormed replaces.avoids
          replaces.mentioned replaces.holds copyAnswered follows.idle (by
            rw [replaces.block, Nat.add_sub_cancel]
            exact led)
        rw [shifted, if_pos (Nat.le_refl _)]
        exact ⟨copyAfter, route, agree.trans blockAgree, idle⟩
      · rw [ending_of_ne special] at led
        have there := (replaces.others special).trans found
        rw [← sameFlow] at led
        refine ⟨(inner.operation.effect answer copy).2, ?_, agree, ?_⟩
        · exact (Moves.intro there copyAnswered rfl led).advances (.refl _ _)
        · refine follows.idle.congr fun name drawn => Operation.effect_frame answer copy _ ?_
          intro occurs
          exact visible name occurs drawn

theorem answered_of_halts
    (replaces : Replaces registry original unfolded place extra instruction draft body)
    (wellFormed : registry.WellFormed) (distinct : (attached unfolded).Nodup)
    (follows : Follows instruction.operation draft store copy) {position count : Nat}
    {inner : Instruction} (found : original[position]? = some inner) {last : Store}
    (halts : Halts registry unfolded count (some (shifted place extra position)) copy last) :
    ∃ answer, inner.operation.Answered registry store answer := by
  have visible := replaces.visible (List.mem_of_getElem? found)
  have answered : ∃ answer, inner.operation.Answered registry copy answer := by
    by_cases special : position = place
    · subst special
      rw [replaces.here] at found
      cases found
      rw [shifted, if_pos (Nat.le_refl _)] at halts
      exact replaces.stands.answered_of_halts wellFormed replaces.avoids replaces.mentioned replaces.holds
        distinct halts
    · exact halts.answered ((replaces.others special).trans found)
  obtain ⟨answer, answered⟩ := answered
  exact ⟨answer, (follows.agree.answered_iff visible).mp answered⟩

theorem goes (replaces : Replaces registry original unfolded place extra instruction draft body)
    (wellFormed : registry.WellFormed) (follows : Follows instruction.operation draft store copy)
    {count : Nat} {start final : Option Nat} {last : Store}
    (goes : Goes registry original count start store final last) :
    ∃ copyLast, Reaches registry unfolded (start.map (shifted place extra)) copy
        (final.map (shifted place extra)) copyLast ∧
      Follows instruction.operation draft last copyLast := by
  induction goes generalizing copy with
  | stay => exact ⟨copy, .refl _ _, follows⟩
  | move moves _ ih =>
      obtain ⟨between, first, followsBetween⟩ := replaces.advances wellFormed follows moves
      obtain ⟨copyLast, rest, followsLast⟩ := ih followsBetween
      exact ⟨copyLast, (first.trans rest).reaches, followsLast⟩

/-- If the original halts, the unfolded code halts with values that agree. -/
theorem halts (replaces : Replaces registry original unfolded place extra instruction draft body)
    (wellFormed : registry.WellFormed) (follows : Follows instruction.operation draft store copy)
    {count : Nat} {start : Option Nat} {last : Store}
    (halts : Halts registry original count start store last) :
    ∃ steps copyLast, Halts registry unfolded steps (start.map (shifted place extra)) copy copyLast ∧
      Agree draft.works last copyLast := by
  obtain ⟨final, goes, outside⟩ := halts
  obtain ⟨copyLast, ⟨steps, path⟩, followsLast⟩ := replaces.goes wellFormed follows goes
  refine ⟨steps, copyLast, ⟨_, path, ?_⟩, followsLast.agree⟩
  intro position ended
  obtain ⟨source, rfl, rfl⟩ := Option.map_eq_some_iff.mp ended
  have past := outside source rfl
  have inside := (List.getElem?_eq_some_iff.mp replaces.here).1
  rw [shifted, if_neg (by omega), replaces.length]
  omega

theorem halts_of_halts (replaces : Replaces registry original unfolded place extra instruction draft body)
    (wellFormed : registry.WellFormed) (resolved : Resolved original)
    (distinct : (attached unfolded).Nodup) (follows : Follows instruction.operation draft store copy)
    {count : Nat} {start : Option Nat} {copyLast : Store}
    (halts : Halts registry unfolded count (start.map (shifted place extra)) copy copyLast) :
    ∃ steps last, Halts registry original steps start store last := by
  -- Every move of the original is matched by at least one move, so the run that is left gets shorter.
  induction count using Nat.strong_induction_on generalizing start store copy with
  | _ count ih =>
      cases start with
      | none => exact ⟨0, store, none, .stay, nofun⟩
      | some position =>
          cases found : original[position]? with
          | none =>
              refine ⟨0, store, _, .stay, ?_⟩
              intro same equal
              cases equal
              exact List.getElem?_eq_none_iff.mp found
          | some inner =>
              have member := List.mem_of_getElem? found
              obtain ⟨answer, answered⟩ := replaces.answered_of_halts wellFormed distinct follows found halts
              obtain ⟨next, led⟩ := resolved.leads member
                (Operation.flow_effect answer store inner.operation)
              have first : Moves registry original position store next _ := .intro found answered rfl led
              obtain ⟨copyAfter, ⟨used, route⟩, followsAfter⟩ := replaces.advances wellFormed follows first
              obtain ⟨left, total, rest⟩ := halts.split distinct route
              obtain ⟨steps, last, final, path, outside⟩ := ih left (by omega) followsAfter rest
              exact ⟨steps + 1, last, final, .move first path, outside⟩

end Replaces

end CounterMachine
