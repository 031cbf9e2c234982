import CounterMachine.Proofs.Charges
import Mathlib.Algebra.GroupWithZero.Nat
set_option autoImplicit false

/-!
# Crossings

A routine that carries a block somewhere in its code runs it like the block alone. Every step executes an
instruction of the block, and all of them together cost what the block charges. The code around the block does
not matter if the labels of the block lead into it.
-/

namespace CounterMachine

theorem Kind.cycles_lt (kind : Kind) : kind.cycles < UInt64.size := by
  cases kind <;> decide

/-- The cycles in the reports of some steps, added without a bound. -/
def spentCycles (reports : List (Nat × UInt64)) : Nat :=
  (reports.map fun report => report.2.toNat).sum

namespace Routine

/-- Steps that all execute an instruction between two positions, as their reports say. -/
structure Crosses (registry : Registry) (fuel first past : Nat) (reports : List (Nat × UInt64))
    (routine ended : Routine) : Prop where
  steps : ∀ earlier, routine.steps registry fuel reports.length earlier =
    (ended, earlier ++ (reports.map fun report => .done (.executed report.1 report.2)).toArray)
  inside : ∀ report ∈ reports, first ≤ report.1 ∧ report.1 < past
  going : ended.state.halted = false
  code : routine.SameCode ended
  counted : ended.state.cycles = routine.state.cycles + UInt64.ofNat (spentCycles reports)

/-- A routine has the operations of a block from a position on, and the named labels of the block lead to the
same instructions. -/
def Carries (routine : Routine) (start : Nat) (block : List Instruction) : Prop :=
  ∀ offset instruction, block[offset]? = some instruction →
    (∃ placed, routine.instruction? (start + offset) = some placed ∧
      placed.operation = instruction.operation) ∧
    (instruction.label.isNamed = true → routine.state.resolve? instruction.label = some (start + offset))

section Crossing

variable {registry : Registry} {fuel first past start : Nat} {reports : List (Nat × UInt64)}
  {block : List Instruction} {routine next ended : Routine}

theorem Crosses.none (going : routine.state.halted = false) :
    Crosses registry fuel first past [] routine routine where
  steps := fun _ => rfl
  inside := by simp
  going := going
  code := .refl routine
  counted := (UInt64.add_zero _).symm

theorem Crosses.step {effect : Effect} {place : Nat}
    (executed : routine.step registry fuel =
      (routine.moved effect (some place), .done (.executed routine.state.position effect.cycles)))
    (within : first ≤ routine.state.position ∧ routine.state.position < past)
    (others : Crosses registry fuel first past reports (routine.moved effect (some place)) ended) :
    Crosses registry fuel first past ((routine.state.position, effect.cycles) :: reports) routine ended where
  steps := by
    intro earlier
    simp only [List.length_cons, Routine.steps, executed, others.steps]
    simp
  inside := List.forall_mem_cons.mpr ⟨within, others.inside⟩
  going := others.going
  code := (moved_sameCode routine effect _).trans others.code
  counted := by
    rw [others.counted, moved_cycles, spentCycles, spentCycles, List.map_cons, List.sum_cons, UInt64.ofNat_add,
      UInt64.ofNat_toNat, UInt64.add_assoc]

/-- An instruction that calls nothing is executed with any fuel. -/
theorem step_silent (registry : Registry) (fuel : Nat) {instruction : Instruction} {flow : Flow} {after : Store}
    {place : Nat} (going : routine.state.halted = false)
    (found : routine.instruction? routine.state.position = some instruction)
    (silent : instruction.operation.call? = none)
    (acts : instruction.operation.effect 0 routine.state.values.value = (flow, after))
    (led : routine.state.destination routine.state.position flow = .ok (some place)) :
    ∃ effect, routine.step registry fuel =
        (routine.moved effect (some place), .done (.executed routine.state.position effect.cycles)) ∧
      effect.values.value = after ∧ effect.cycles = UInt64.ofNat instruction.kind.cycles := by
  obtain ⟨effect, executed, same, charged⟩ := Operation.execute_of_silent silent
    (fun call => call.toArgument.evaluate registry (replyOf (finish registry fuel)) routine.state.values)
    routine.state.values
  rw [acts] at same
  cases same
  exact ⟨effect, stepWith_executed going found executed led, rfl, charged⟩

namespace Carries

theorem sameCode (carries : routine.Carries start block) (same : routine.SameCode next) :
    next.Carries start block := by
  intro offset instruction found
  simpa only [instruction?, node?, same.sequence, same.forest, State.resolve?, same.labels] using
    carries offset instruction found

theorem destination (carries : routine.Carries start block) {offset place : Nat} {flow : Flow}
    (leads : Leads block offset flow (some place)) :
    routine.state.destination (start + offset) flow = .ok (some (start + place)) := by
  cases leads with
  | next | empty => rfl
  | named found label =>
      have attached := (carries _ _ found).2 (by rw [label]; rfl)
      rw [label] at attached
      simp only [State.destination, attached]

/-- The induction is on the route through the block: the routine stands where the route has come to, and its
values are those of the store. -/
theorem crosses (carries : routine.Carries start block) (registry : Registry) (fuel : Nat)
    {cycles offset final : Nat} {store last : Store} (charges : Charges block cycles offset store final last)
    (going : routine.state.halted = false) (position : routine.state.position = start + offset)
    (values : routine.state.values.value = store) :
    ∃ reports ended, Crosses registry fuel start (start + block.length) reports routine ended ∧
      spentCycles reports = cycles ∧ ended.state.position = start + final ∧
      ended.state.values.value = last := by
  induction charges generalizing routine with
  | none => exact ⟨[], routine, .none going, rfl, position, values⟩
  | @move cycles offset middle final store between last instruction flow found silent acts leads _ ih =>
      obtain ⟨⟨placed, present, same⟩, _⟩ := carries offset instruction found
      rw [← position] at present
      obtain ⟨effect, executed, valued, charged⟩ := step_silent registry fuel going present
        (by rw [same, silent]) (by rw [same, values, acts]) (by rw [position, carries.destination leads])
      obtain ⟨reports, ended, crosses, spent, place, result⟩ :=
        @ih (routine.moved effect (some (start + middle))) (carries.sameCode (moved_sameCode ..))
          (moved_halted _ _ _ going) rfl (by rw [moved_values, valued])
      have inside := (List.getElem?_eq_some_iff.mp found).1
      refine ⟨_, ended, crosses.step executed (by omega), ?_, place, result⟩
      have kind : placed.kind = instruction.kind := congrArg Operation.kind same
      rw [spentCycles, List.map_cons, List.sum_cons, ← spentCycles, spent, charged, kind,
        UInt64.toNat_ofNat_of_lt' (Kind.cycles_lt _), Nat.add_comm]

end Carries

/-- A block whose own labels are attached nowhere before it is carried by the code that it is part of. Its first
instruction may have any label. -/
theorem carries_of_part (present : ∀ id ∈ routine.sequence, ∃ node, routine.forest.get? id = some node)
    (labels : routine.state.labels = routine.labelPositions) {before after rest : List Instruction}
    {entry : Operation} {label : Label}
    (code : routine.instructions = before ++ ⟨label, entry⟩ :: rest ++ after)
    (distinct : (attached (⟨label, entry⟩ :: rest)).Nodup) (apart : ∀ own ∈ attached rest, own ∉ attached before) :
    routine.Carries before.length (.plain entry :: rest) := by
  have placed {offset : Nat} (inside : offset < rest.length + 1) :
      routine.instructions[before.length + offset]? = (⟨label, entry⟩ :: rest)[offset]? := by
    rw [code, List.append_assoc, List.getElem?_append_right (Nat.le_add_right _ _), Nat.add_sub_cancel_left,
      List.getElem?_append_left inside]
  intro offset instruction found
  have inside := (List.getElem?_eq_some_iff.mp found).1
  rw [instruction?_eq_getElem? present, placed inside]
  cases offset with
  | zero =>
      cases found
      exact ⟨⟨_, rfl, rfl⟩, nofun⟩
  | succ offset =>
      rw [List.getElem?_cons_succ] at found ⊢
      refine ⟨⟨instruction, found, rfl⟩, fun named => ?_⟩
      have own : instruction.label ∈ attached rest :=
        mem_attached.mpr ⟨named, instruction, List.mem_of_getElem? found, rfl⟩
      have outside : (before.findIdx? fun other => other.label = instruction.label) = none := by
        refine List.findIdx?_eq_none_iff.mpr fun other member => decide_eq_false fun same => ?_
        exact apart _ own (mem_attached.mpr ⟨named, other, member, same⟩)
      have here : ((⟨label, entry⟩ :: rest).findIdx? fun other => other.label = instruction.label) =
          some (offset + 1) := findIdx?_attached distinct found rfl named
      have nonempty : instruction.label ≠ .empty := by
        intro empty
        rw [empty] at named
        cases named
      rw [State.resolve?, labels, routine.getElem?_labelPositions nonempty, code, List.append_assoc,
        List.findIdx?_append, outside, List.findIdx?_append, here]
      simp [Nat.add_comm]

end Crossing

end Routine

end CounterMachine
