import CounterMachine.Routine.Degree
import CounterMachine.Proofs.Collapsing
import Mathlib.Logic.Relation
set_option autoImplicit false

/-!
# Degrees of blocks

The degree of a function body is computed without the function itself, so that the degree of a recursive
function is finite. Where no function reaches itself this makes no difference, and a block that stands for an
operation has a degree that is smaller by exactly one. Only the copy of a variable to itself stands for less.
-/

namespace CounterMachine

open Inlining

/-! ## Largest degrees -/

variable {body other : String → Nat}

theorem degreeOf_le {code : List Instruction} {bound : Nat} :
    degreeOf body code ≤ bound ↔ ∀ instruction ∈ code, instruction.operation.degree body ≤ bound := by
  simp [degreeOf, foldl_max_le]

theorem degree_le_degreeOf {code : List Instruction} {instruction : Instruction}
    (member : instruction ∈ code) : instruction.operation.degree body ≤ degreeOf body code :=
  degreeOf_le.mp (Nat.le_refl _) instruction member

theorem exists_degree_eq {code : List Instruction} (nonempty : code ≠ []) :
    ∃ instruction ∈ code, instruction.operation.degree body = degreeOf body code := by
  rcases Nat.eq_zero_or_pos (degreeOf body code) with zero | positive
  · obtain ⟨instruction, member⟩ := List.exists_mem_of_ne_nil code nonempty
    have bounded : instruction.operation.degree body ≤ degreeOf body code := degree_le_degreeOf member
    exact ⟨instruction, member, by omega⟩
  · exact attained (fun bound => degreeOf_le) positive

theorem Argument.degreeAll_le {arguments : List Argument} {bound : Nat} :
    degreeAll body arguments ≤ bound ↔ ∀ argument ∈ arguments, argument.degree body ≤ bound := by
  induction arguments with
  | nil => simp [degreeAll]
  | cons argument rest ih => simp [degreeAll, ih]

theorem Instruction.isBasic_iff {instruction : Instruction} :
    instruction.isBasic = true ↔ instruction.operation.degree body = 0 := by
  cases instruction with
  | mk label operation => cases operation <;> simp [isBasic, kind, Operation.kind, Kind.isBasic,
      Kind.generation, Operation.degree, Kind.degree?]

/-! ## Degrees and names -/

namespace Argument

mutual

theorem degree_congr : (argument : Argument) →
    (∀ call ∈ argument.calls, body call.function = other call.function) →
    argument.degree body = argument.degree other
  | .var name, _ => by rw [degree, degree]
  | .call function arguments, same => by
      rw [calls, List.forall_mem_cons] at same
      rw [degree, degree, same.1, degreeAll_congr arguments same.2]

theorem degreeAll_congr : (arguments : List Argument) →
    (∀ call ∈ callsAll arguments, body call.function = other call.function) →
    degreeAll body arguments = degreeAll other arguments
  | [], _ => by rw [degreeAll, degreeAll]
  | argument :: rest, same => by
      rw [callsAll, List.forall_mem_append] at same
      rw [degreeAll, degreeAll, degree_congr argument same.1, degreeAll_congr rest same.2]

end

mutual

theorem degree_mapVars (rename : Variable → Variable) :
    (argument : Argument) → (argument.mapVars rename).degree body = argument.degree body
  | .var name => by rw [mapVars, degree, degree]
  | .call function arguments => by rw [mapVars, degree, degree, degreeAll_mapVarsAll rename arguments]

theorem degreeAll_mapVarsAll (rename : Variable → Variable) :
    (arguments : List Argument) → degreeAll body (mapVarsAll rename arguments) = degreeAll body arguments
  | [] => by rw [mapVarsAll]
  | argument :: rest => by
      rw [mapVarsAll, degreeAll, degreeAll, degree_mapVars rename argument, degreeAll_mapVarsAll rename rest]

end

end Argument

namespace Operation

variable (operation : Operation) (rename : Variable → Variable) (redirect : Label → Label)

@[simp] theorem degree_mapVars : (operation.mapVars rename).degree body = operation.degree body := by
  cases operation <;>
    simp [mapVars, degree, kind, Call.degree, Call.mapVars, Argument.degreeAll_mapVarsAll]

@[simp] theorem degree_mapTarget : (operation.mapTarget redirect).degree body = operation.degree body := by
  cases operation <;> rfl

theorem degree_congr {operation : Operation}
    (same : ∀ name ∈ operation.calledNames, body name = other name) :
    operation.degree body = operation.degree other := by
  have inCall : ∀ {call : Call}, operation.call? = some call → call.degree body = call.degree other := by
    intro call calls
    have outer : ∀ inner ∈ call.calls, body inner.function = other inner.function := fun inner nested =>
      same _ (mem_calledNames.mpr ⟨call, calls, inner, nested, rfl⟩)
    rw [Call.calls, Call.toArgument, Argument.calls, List.forall_mem_cons] at outer
    rw [Call.degree, Call.degree, outer.1, Argument.degreeAll_congr _ outer.2]
  cases operation with
  | quote subject call | jumpEqualFunction subject call target => simp only [degree, inCall rfl]
  | _ => rfl

end Operation

theorem Routine.degreeOf_congr {routine : Routine}
    (same : ∀ name ∈ routine.calledNames, body name = other name) :
    degreeOf body routine.instructions = degreeOf other routine.instructions := by
  rw [degreeOf, degreeOf]
  congr 1
  refine List.map_congr_left fun instruction member => ?_
  exact Operation.degree_congr fun name called => same name (mem_calledNames.mpr ⟨instruction, member, called⟩)

/-! ## Bodies of functions -/

namespace Registry

open Relation

variable {registry : Registry} {name start : String} {routine : Routine}

/-- A function of the registry calls another, by name. -/
def Calls (registry : Registry) (caller callee : String) : Prop :=
  ∃ routine, registry[caller]? = some routine ∧ callee ∈ routine.calledNames

theorem getElem?_erase_iff {other : String} :
    (registry.erase name)[other]? = some routine ↔ name ≠ other ∧ registry[other]? = some routine := by
  rw [Std.ExtTreeMap.getElem?_erase]
  simp only [Std.LawfulEqCmp.compare_eq_iff_eq]
  split <;> simp_all

theorem Calls.of_erase {caller callee : String} (calls : Calls (registry.erase name) caller callee) :
    registry.Calls caller callee := by
  obtain ⟨routine, found, called⟩ := calls
  exact ⟨routine, (getElem?_erase_iff.mp found).2, called⟩

theorem erase_comm (registry : Registry) (left right : String) :
    (registry.erase left).erase right = (registry.erase right).erase left := by
  apply Std.ExtTreeMap.ext_getElem?
  intro name
  simp only [Std.ExtTreeMap.getElem?_erase]
  split <;> split <;> rfl

theorem bodyDegree_of_none (absent : registry[name]? = none) : registry.bodyDegree name = 0 := by
  rw [bodyDegree]
  split
  · rfl
  · next found => rw [absent] at found; cases found

theorem bodyDegree_of_some (found : registry[name]? = some routine) :
    registry.bodyDegree name = degreeOf (bodyDegree (registry.erase name)) routine.instructions := by
  rw [bodyDegree]
  split
  · next absent => rw [absent] at found; cases found
  · next other same => rw [same] at found; cases found; rfl

/-- Erasing a function leaves the degree of every body that does not reach it. -/
theorem bodyDegree_erase (unreached : ¬ReflTransGen registry.Calls start name) :
    bodyDegree (registry.erase name) start = registry.bodyDegree start := by
  -- Entering a body erases its function, so the induction is on the size of the registry.
  induction size : registry.size using Nat.strong_induction_on generalizing registry start with
  | _ _ ih =>
      subst size
      have different : name ≠ start := by
        rintro rfl
        exact unreached .refl
      cases found : registry[start]? with
      | none =>
          have absent : (registry.erase name)[start]? = none := by
            rw [Std.ExtTreeMap.getElem?_erase, found]
            split <;> rfl
          rw [bodyDegree_of_none found, bodyDegree_of_none absent]
      | some routine =>
          rw [bodyDegree_of_some found, bodyDegree_of_some (getElem?_erase_iff.mpr ⟨different, found⟩),
            erase_comm]
          refine Routine.degreeOf_congr fun callee called => ?_
          refine ih _ (size_erase_lt found) ?_ rfl
          intro reached
          refine unreached (.head ⟨routine, found, called⟩ ?_)
          exact ReflTransGen.mono (fun _ _ => Calls.of_erase) _ _ reached

/-- The degree of a body is that of its instructions, if the function does not reach itself. -/
theorem degreeOf_bodyDegree (found : registry[name]? = some routine)
    (acyclic : ¬TransGen registry.Calls name name) :
    degreeOf registry.bodyDegree routine.instructions = registry.bodyDegree name := by
  rw [bodyDegree_of_some found]
  refine Routine.degreeOf_congr fun callee called => (bodyDegree_erase ?_).symm
  intro reached
  exact acyclic (.head' ⟨routine, found, called⟩ reached)

end Registry

/-! ## Blocks -/

theorem Inlining.degree_bind (slot : Variable) (argument : Argument) :
    (bind slot argument).degree body = argument.degree body := by
  cases argument with
  | var name => rw [Argument.degree]; rfl
  | call function arguments => rw [Argument.degree]; rfl

theorem Inlining.Use.degree_composition (use : Use) (subject answer : Variable) (call : Call) :
    (use.composition subject call).degree body =
      1 + max ((use.operation subject answer).degree body) (call.degree body) := by
  cases use <;> rfl

theorem Inlining.Use.move_le_degree (use : Use) (subject answer : Variable) :
    moveDegree ≤ (use.operation subject answer).degree body := by
  cases use <;> simp [operation, moveDegree, Operation.degree, Operation.kind, Kind.degree?]

theorem Inlining.Frame.degree_copyOf (frame : Frame) (callee : Routine) (instruction : Instruction) :
    (frame.copyOf callee instruction).operation.degree body = instruction.operation.degree body := by
  simp [copyOf, Instruction.mapLabels, Instruction.mapVars]

theorem Inlining.Frame.degreeOf_block {frame : Frame} {callee : Routine} {subject : Variable}
    {arguments : List Argument} {use : Use} (fits : frame.Fits callee)
    (arity : callee.inputs.length = arguments.length) :
    degreeOf body (frame.block subject callee arguments use) =
      max ((use.operation subject frame.answer).degree body)
        (max (degreeOf body callee.instructions) (Argument.degreeAll body arguments)) := by
  have lengths : frame.slots.length = arguments.length := fits.slots.trans arity
  have move : moveDegree ≤ (use.operation subject frame.answer).degree body := use.move_le_degree _ _
  refine eq_of_forall_ge_iff fun bound => ?_
  rw [degreeOf_le, Nat.max_le, Nat.max_le, degreeOf_le, Argument.degreeAll_le]
  constructor
  · intro each
    refine ⟨each (frame.tail subject use) (mem_block.mpr (by simp)), ?_, ?_⟩
    · intro original inBody
      rw [← frame.degree_copyOf callee original]
      exact each _ (mem_block.mpr (.inr (.inr (.inr (.inl ⟨original, inBody, rfl⟩)))))
    · intro argument inArguments
      rw [← List.map_snd_zip lengths.ge, List.mem_map] at inArguments
      obtain ⟨⟨slot, argument⟩, paired, rfl⟩ := inArguments
      rw [← degree_bind slot]
      exact each _ (mem_block.mpr (.inr (.inr (.inl ⟨slot, argument, paired, rfl⟩))))
  · rintro ⟨used, inBody, inArguments⟩ instruction member
    rcases mem_block.mp member with rfl | ⟨cleared, _, rfl⟩ | ⟨slot, argument, paired, rfl⟩ |
      ⟨original, inCallee, rfl⟩ | rfl
    · exact Nat.zero_le _
    · have small : (Operation.zeroVariable cleared).degree body ≤ moveDegree :=
        (by decide : 1 ≤ moveDegree)
      exact Nat.le_trans small (Nat.le_trans move used)
    · rw [Instruction.plain, degree_bind]
      exact inArguments argument (List.of_mem_zip paired).2
    · rw [degree_copyOf]
      exact inBody original inCallee
    · exact used

/-- The copy of a variable to itself. -/
def Operation.SelfCopy (operation : Operation) : Prop :=
  ∃ subject, operation = .assignment subject subject

instance : DecidablePred Operation.SelfCopy
  | .assignment subject source =>
      decidable_of_iff (subject = source)
        ⟨fun same => ⟨subject, same ▸ rfl⟩, fun ⟨_, copies⟩ => by cases copies; rfl⟩
  | .increase _ | .decrease _ | .jumpNotZero _ _ | .neutral _ | .zeroVariable _ | .gotoLabel _
  | .constantAssignment _ _ | .jumpZero _ _ | .jumpEqualConstant _ _ _ | .jumpEqualVariable _ _ _
  | .quote _ _ | .jumpEqualFunction _ _ _ => isFalse nofun

namespace Operation.StandsFor

variable {registry : Registry} {operation : Operation} {draft : Draft} {block : List Instruction}

/-- A block has a degree that is smaller by one, or even smaller in place of a copy to itself. -/
theorem degreeOf_block (stands : operation.StandsFor registry draft block)
    (bodies : ∀ {call callee}, operation.call? = some call → registry[call.function]? = some callee →
      degreeOf body callee.instructions = body call.function) :
    degreeOf body block + 1 ≤ operation.degree body ∧
      (¬operation.SelfCopy → degreeOf body block + 1 = operation.degree body) := by
  cases stands with
  | composition subject call use callee frame composed found arity fits =>
      have own : operation.call? = some call := by
        subst composed
        cases use <;> rfl
      have exact : degreeOf body (frame.block subject callee call.arguments use) + 1 =
          operation.degree body := by
        rw [composed, use.degree_composition subject frame.answer, Frame.degreeOf_block fits arity,
          bodies own found, Call.degree, Nat.add_comm]
      exact ⟨exact.le, fun _ => exact⟩
  | copySelf => exact ⟨(by decide : 0 + 1 ≤ 2), fun different => (different ⟨_, rfl⟩).elim⟩
  | @constant subject value pump after count =>
      have top : degreeOf body (Block.constant subject value pump after count) = 1 := by
        refine eq_of_forall_ge_iff fun bound => ?_
        simp [degreeOf_le, Block.constant, Instruction.plain, Instruction.labeled, degree, kind,
          Kind.degree?, or_imp, forall_and]
      simp [top, degree, kind, Kind.degree?]
  | @jumpIfConstant subject value target different rest =>
      have top : degreeOf body (Block.jumpIfConstant subject value target different rest) = 2 := by
        refine eq_of_forall_ge_iff fun bound => ?_
        have smaller : 2 ≤ bound → 1 ≤ bound := Nat.le_of_succ_le
        simp +contextual [degreeOf_le, Block.jumpIfConstant, Instruction.plain, Instruction.labeled, degree,
          kind, Kind.degree?, or_imp, forall_and, smaller]
      simp [top, degree, kind, Kind.degree?]
  | _ =>
      simp [degreeOf, Block.zero, Block.goto, Block.copy, Block.jumpIfZero, Block.jumpIfEqual,
        Instruction.plain, Instruction.labeled, degree, kind, Kind.degree?]

end Operation.StandsFor

end CounterMachine
