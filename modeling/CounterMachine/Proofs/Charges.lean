import CounterMachine.Proofs.Routes
set_option autoImplicit false

/-!
# Charges of routes

A route through instructions that call nothing costs the cycles of their kinds. Loops are followed by induction
on the counter that they count down: each unit of it costs one pass and one jump.
-/

namespace CounterMachine

/-- Instructions without calls lead from a position to another and cost a number of cycles. -/
inductive Charges (code : List Instruction) : Nat → Nat → Store → Nat → Store → Prop where
  | none {position : Nat} {store : Store} : Charges code 0 position store position store
  | move {cycles position middle final : Nat} {store between last : Store} {instruction : Instruction}
      {flow : Flow} (found : code[position]? = some instruction) (silent : instruction.operation.call? = none)
      (acts : instruction.operation.effect 0 store = (flow, between))
      (leads : Leads code position flow (some middle))
      (others : Charges code cycles middle between final last) :
      Charges code (cycles + instruction.kind.cycles) position store final last

section Charging

variable {registry : Registry} {code : List Instruction} {cycles start final : Nat} {store last : Store}

namespace Charges

theorem trans {more middle : Nat} {between : Store} (first : Charges code cycles start store middle between)
    (second : Charges code more middle between final last) :
    Charges code (cycles + more) start store final last := by
  induction first with
  | none =>
      rw [Nat.zero_add]
      exact second
  | move found silent acts leads _ ih =>
      rw [Nat.add_right_comm]
      exact .move found silent acts leads (ih second)

theorem reaches (charges : Charges code cycles start store final last) :
    Reaches registry code (some start) store (some final) last := by
  induction charges with
  | none => exact .refl _ _
  | move found silent acts leads _ ih =>
      exact ((Moves.intro found (Operation.answered_silent silent) acts leads).advances ih).reaches

theorem advances (charges : Charges code cycles start store final last) (moved : start ≠ final) :
    Advances registry code start store (some final) last := by
  cases charges with
  | none => exact (moved rfl).elim
  | move found silent acts leads others =>
      exact (Moves.intro found (Operation.answered_silent silent) acts leads).advances others.reaches

end Charges

namespace Holds

variable {body : List Instruction} {after : Store}

theorem charges (holds : Holds code start body) (offset : Nat) {instruction : Instruction}
    (found : body[offset]? = some instruction) (silent : instruction.operation.call? = none) {flow : Flow}
    (acts : instruction.operation.effect 0 store = (flow, after)) {place : Nat}
    (leads : Leads code (start + offset) flow (some place))
    (rest : Charges code cycles place after final last) :
    Charges code (cycles + instruction.kind.cycles) (start + offset) store final last := by
  obtain ⟨placed, present, same, _⟩ := holds offset instruction found
  rw [Instruction.kind, ← same]
  rw [← same] at silent acts
  exact .move present silent acts leads rest

/-- A loop that takes one from a counter in each pass, at the same cost, and ends when nothing is left. -/
theorem loop (holds : Holds code start body) (top bottom : Nat) {counter : Variable} {again : Label}
    (found : (body[bottom]?).map Instruction.operation = some (.jumpNotZero counter again))
    (named : again.isNamed = true) (labeled : (body[top]?).map Instruction.label = some again)
    (invariant : Nat → Store → Prop)
    (counts : ∀ {count store}, invariant count store → (store counter).toNat = count)
    (pass : ∀ {count store}, invariant (count + 1) store → ∃ after, invariant count after ∧
      Charges code cycles (start + top) store (start + bottom) after)
    {count : Nat} (positive : count ≠ 0) (initial : invariant count store) :
    ∃ last, invariant 0 last ∧
      Charges code ((cycles + 2) * count) (start + top) store (start + (bottom + 1)) last := by
  obtain ⟨instruction, present, operation⟩ := Option.map_eq_some_iff.mp found
  have charged : instruction.kind.cycles = 2 := by
    rw [Instruction.kind, operation]
    rfl
  induction count generalizing store with
  | zero => exact (positive rfl).elim
  | succ count ih =>
      obtain ⟨after, kept, once⟩ := pass initial
      have branch : ∀ {more last}, Charges code more
          (if after counter ≠ 0 then start + top else start + (bottom + 1)) after
          (start + (bottom + 1)) last →
          Charges code (cycles + (more + 2)) (start + top) store (start + (bottom + 1)) last := by
        intro more last rest
        refine once.trans ?_
        rw [← charged]
        exact holds.charges bottom present (by rw [operation]; rfl) (by rw [operation]; rfl)
          (.jumpIf (holds.leads top named labeled)) rest
      by_cases empty : count = 0
      · subst empty
        have zero : after counter = 0 := UInt64.toNat_inj.mp (counts kept)
        rw [if_neg (not_not_intro zero)] at branch
        refine ⟨after, kept, ?_⟩
        rw [Nat.mul_one]
        simpa using branch .none
      · have nonzero : after counter ≠ 0 := by
          intro zero
          have none := counts kept
          rw [zero] at none
          exact empty none.symm
        rw [if_pos nonzero] at branch
        obtain ⟨last, done, others⟩ := ih empty kept
        refine ⟨last, done, ?_⟩
        have total := branch others
        rwa [Nat.add_left_comm] at total

end Holds

end Charging

end CounterMachine
