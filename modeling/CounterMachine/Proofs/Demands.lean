import CounterMachine.Proofs.Blocks
import Mathlib.Algebra.BigOperators.Group.List.Basic
import Mathlib.Algebra.GroupWithZero.Nat
set_option autoImplicit false

/-!
# Names that an expansion needs

How many labels and work variables an expansion draws is known beforehand. It depends on the kinds of the
instructions, on the functions that they call, and on the number of rounds, but not on the names that stand in
the instructions: only the copy of a variable to itself needs none.
-/

namespace CounterMachine

open Inlining

/-! ## Numbers of names -/

/-- A number of labels and a number of work variables. -/
@[ext]
structure Quota where
  labels : Nat
  works : Nat
deriving DecidableEq

namespace Quota

instance : Zero Quota where
  zero := ⟨0, 0⟩

instance : Add Quota where
  add first second := ⟨first.labels + second.labels, first.works + second.works⟩

instance : LE Quota where
  le part whole := part.labels ≤ whole.labels ∧ part.works ≤ whole.works

instance (part whole : Quota) : Decidable (part ≤ whole) :=
  inferInstanceAs (Decidable (part.labels ≤ whole.labels ∧ part.works ≤ whole.works))

instance : AddCommMonoid Quota where
  add_assoc _ _ _ := Quota.ext (Nat.add_assoc _ _ _) (Nat.add_assoc _ _ _)
  zero_add _ := Quota.ext (Nat.zero_add _) (Nat.zero_add _)
  add_zero _ := rfl
  add_comm _ _ := Quota.ext (Nat.add_comm _ _) (Nat.add_comm _ _)
  nsmul count quota := ⟨count * quota.labels, count * quota.works⟩
  nsmul_zero _ := Quota.ext (Nat.zero_mul _) (Nat.zero_mul _)
  nsmul_succ _ _ := Quota.ext (Nat.succ_mul _ _) (Nat.succ_mul _ _)

variable (first second : Quota) (count : Nat)

@[simp] theorem labels_zero : (0 : Quota).labels = 0 := rfl

@[simp] theorem works_zero : (0 : Quota).works = 0 := rfl

@[simp] theorem labels_add : (first + second).labels = first.labels + second.labels := rfl

@[simp] theorem works_add : (first + second).works = first.works + second.works := rfl

@[simp] theorem labels_nsmul : (count • first).labels = count * first.labels := rfl

@[simp] theorem works_nsmul : (count • first).works = count * first.works := rfl

theorem le_iff {part whole : Quota} : part ≤ whole ↔ part.labels ≤ whole.labels ∧ part.works ≤ whole.works :=
  Iff.rfl

theorem le_refl (quota : Quota) : quota ≤ quota :=
  ⟨Nat.le_refl _, Nat.le_refl _⟩

theorem le_add_right : first ≤ first + second :=
  ⟨Nat.le_add_right _ _, Nat.le_add_right _ _⟩

/-! ## Needs of simple instructions -/

/-- For setting a variable to 0. -/
def clearing : (rounds : Nat) → Quota
  | 0 => 0
  | _ + 1 => ⟨2, 1⟩

/-- For a jump that is always taken. -/
def leap : (rounds : Nat) → Quota
  | 0 => 0
  | _ + 1 => ⟨0, 1⟩

/-- For setting a variable to a constant. -/
def filling : (rounds : Nat) → Quota
  | 0 => 0
  | rounds + 1 => ⟨2, 1⟩ + (clearing rounds + leap rounds)

/-- For the copy of a variable to another one. -/
def copy : (rounds : Nat) → Quota
  | 0 => 0
  | rounds + 1 => ⟨3, 1⟩ + (clearing rounds + leap rounds)

/-- For a jump if a variable is 0. -/
def zeroTest : (rounds : Nat) → Quota
  | 0 => 0
  | rounds + 1 => ⟨1, 0⟩ + leap rounds

/-- For a jump if a variable has a value. -/
def valueTest (value : Nat) : (rounds : Nat) → Quota
  | 0 => 0
  | rounds + 1 => ⟨1, 1⟩ + (copy rounds + value • zeroTest rounds + leap rounds)

/-- For a jump if two variables are equal. -/
def comparison : (rounds : Nat) → Quota
  | 0 => 0
  | rounds + 1 => ⟨3, 2⟩ + (2 • copy rounds + 3 • zeroTest rounds + leap rounds)

end Quota

/-! ## Needs of all instructions -/

/-- For one frame of a function. -/
def Inlining.frameDemand (callee : Routine) : Quota where
  labels := (localLabels callee).length + if jumpsToExit callee then 1 else 0
  works := 1 + callee.inputs.length + (localVars callee).length

/-- For the use of a result. -/
def Inlining.Use.demand (rounds : Nat) : Use → Quota
  | assign => .copy rounds
  | compare _ => .comparison rounds

/-- For the binding of an argument, given the needs of operations. -/
def Argument.demand (rounds : Nat) (each : Operation → Quota) : Argument → Quota
  | .var _ => .copy rounds
  | .call function arguments => each (.quote .result ⟨function, arguments⟩)

/-- For the instructions that a call stands for, given the needs of operations. -/
def Call.demand (registry : Registry) (rounds : Nat) (each : Operation → Quota) (use : Use) (call : Call) :
    Quota :=
  match registry[call.function]? with
  | none => 0
  | some callee =>
      (1 + (localVars callee).length) • Quota.clearing rounds +
        (call.arguments.map (Argument.demand rounds each)).sum +
        (callee.instructions.map fun instruction => each instruction.operation).sum + use.demand rounds

/-- The names that one round draws for a composition. -/
def Call.ownDemand (registry : Registry) (call : Call) : Quota :=
  match registry[call.function]? with
  | none => 0
  | some callee => frameDemand callee

/-- The names that some rounds of expansion draw for an operation. -/
@[simp]
def Operation.demand (registry : Registry) : (rounds : Nat) → Operation → Quota
  | _, .increase _ | _, .decrease _ | _, .jumpNotZero _ _ | _, .neutral _ => 0
  | rounds, .zeroVariable _ => .clearing rounds
  | rounds, .gotoLabel _ => .leap rounds
  | rounds, .constantAssignment _ _ => .filling rounds
  | rounds, .assignment subject source => if subject = source then 0 else .copy rounds
  | rounds, .jumpZero _ _ => .zeroTest rounds
  | rounds, .jumpEqualConstant _ value _ => .valueTest value.toNat rounds
  | rounds, .jumpEqualVariable _ _ _ => .comparison rounds
  | 0, .quote _ _ | 0, .jumpEqualFunction _ _ _ => 0
  | rounds + 1, .quote _ call =>
      call.ownDemand registry + call.demand registry rounds (demand registry rounds) .assign
  | rounds + 1, .jumpEqualFunction _ call target =>
      call.ownDemand registry + call.demand registry rounds (demand registry rounds) (.compare target)

/-! ## Needs and names -/

section Renaming

variable {registry : Registry} {each : Operation → Quota} {rename : Variable → Variable}

theorem Argument.demand_mapVars (rounds : Nat)
    (calls : ∀ function arguments, each (.quote .result ⟨function, mapVarsAll rename arguments⟩) =
      each (.quote .result ⟨function, arguments⟩)) (argument : Argument) :
    (argument.mapVars rename).demand rounds each = argument.demand rounds each := by
  cases argument with
  | var name => rw [mapVars, demand, demand]
  | call function arguments =>
      rw [mapVars]
      exact calls function arguments

theorem Call.demand_mapVars (rounds : Nat)
    (calls : ∀ function arguments, each (.quote .result ⟨function, Argument.mapVarsAll rename arguments⟩) =
      each (.quote .result ⟨function, arguments⟩)) (use : Use) (call : Call) :
    (call.mapVars rename).demand registry rounds each use = call.demand registry rounds each use := by
  have arguments : (call.mapVars rename).arguments.map (Argument.demand rounds each) =
      call.arguments.map (Argument.demand rounds each) := by
    rw [mapVars, Argument.mapVarsAll_eq_map, List.map_map]
    exact List.map_congr_left fun argument _ => Argument.demand_mapVars rounds calls argument
  rw [demand, demand, arguments]
  rfl

/-- The variables in a composition do not matter. -/
theorem Operation.demand_quote (rounds : Nat) (subject other : Variable) (call : Call) :
    (Operation.quote subject (call.mapVars rename)).demand registry rounds =
      (Operation.quote other call).demand registry rounds := by
  induction rounds generalizing subject other call with
  | zero => rfl
  | succ rounds ih =>
      rw [Operation.demand, Operation.demand, Call.demand_mapVars rounds fun function arguments =>
        ih .result .result ⟨function, arguments⟩]
      rfl

theorem Operation.demand_jumpEqualFunction (rounds : Nat) (subject other : Variable) (call : Call)
    (target final : Label) :
    (Operation.jumpEqualFunction subject (call.mapVars rename) target).demand registry rounds =
      (Operation.jumpEqualFunction other call final).demand registry rounds := by
  cases rounds with
  | zero => rfl
  | succ rounds =>
      rw [Operation.demand, Operation.demand, Call.demand_mapVars rounds fun function arguments =>
        Operation.demand_quote rounds .result .result ⟨function, arguments⟩]
      rfl

/-- Variables may be renamed, if different ones stay different. -/
theorem Operation.demand_mapVars {operation : Operation} (rounds : Nat)
    (injective : ∀ left ∈ operation.vars, ∀ right ∈ operation.vars, rename left = rename right → left = right) :
    (operation.mapVars rename).demand registry rounds = operation.demand registry rounds := by
  cases operation with
  | assignment subject source =>
      have same : rename subject = rename source ↔ subject = source :=
        ⟨injective subject (by simp [vars]) source (by simp [vars]), congrArg rename⟩
      simp only [mapVars, demand, same]
  | quote subject call => exact demand_quote rounds _ _ call
  | jumpEqualFunction subject call target => exact demand_jumpEqualFunction rounds _ _ call _ _
  | _ => simp only [mapVars, demand]

theorem Operation.demand_mapTarget (operation : Operation) (rounds : Nat) (redirect : Label → Label) :
    (operation.mapTarget redirect).demand registry rounds = operation.demand registry rounds := by
  cases operation with
  | jumpEqualFunction subject call target => cases rounds <;> rfl
  | _ => simp only [mapTarget, demand]

end Renaming

theorem Operation.demand_of_basic {registry : Registry} {operation : Operation} (rounds : Nat)
    (basic : operation.kind.isBasic = true) : operation.demand registry rounds = 0 := by
  cases operation with
  | increase | decrease | jumpNotZero | neutral => rw [demand]
  | _ => cases basic

theorem Operation.demand_zero (registry : Registry) (operation : Operation) :
    operation.demand registry 0 = 0 := by
  cases operation with
  | assignment subject source => simp [Quota.copy]
  | _ => simp [Quota.clearing, Quota.leap, Quota.filling, Quota.zeroTest, Quota.valueTest,
      Quota.comparison]

theorem Call.demand_zero (registry : Registry) (use : Use) (call : Call) :
    call.demand registry 0 (Operation.demand registry 0) use = 0 := by
  have arguments : call.arguments.map (Argument.demand 0 (Operation.demand registry 0)) =
      call.arguments.map fun _ => 0 := by
    refine List.map_congr_left fun argument _ => ?_
    cases argument with
    | var name => rfl
    | call function arguments => exact Operation.demand_zero registry _
  have last : use.demand 0 = 0 := by cases use <;> rfl
  rw [demand, arguments]
  cases registry[call.function]? with
  | none => rfl
  | some callee => simp [Quota.clearing, Operation.demand_zero, last]

theorem Operation.demand_composition (registry : Registry) (rounds : Nat) (subject : Variable) (call : Call)
    (use : Use) :
    (use.composition subject call).demand registry (rounds + 1) =
      call.ownDemand registry + call.demand registry rounds (Operation.demand registry rounds) use := by
  cases use <;> rfl

/-- One round of a composition draws one frame. -/
theorem Operation.demand_one_composition {registry : Registry} {call : Call} {callee : Routine}
    (found : registry[call.function]? = some callee) (subject : Variable) (use : Use) :
    (use.composition subject call).demand registry 1 = frameDemand callee := by
  rw [demand_composition, Call.demand_zero, add_zero, Call.ownDemand, found]

/-- More rounds need no fewer names than one. -/
theorem Operation.demand_one_le (registry : Registry) (operation : Operation) (rounds : Nat) :
    operation.demand registry 1 ≤ operation.demand registry (rounds + 1) := by
  have composed (subject : Variable) (call : Call) (use : Use) :
      (use.composition subject call).demand registry 1 ≤
        (use.composition subject call).demand registry (rounds + 1) := by
    rw [demand_composition, demand_composition, Call.demand_zero]
    exact Quota.le_add_right _ _
  cases operation with
  | quote subject call => exact composed subject call .assign
  | jumpEqualFunction subject call target => exact composed subject call (.compare target)
  | assignment subject source =>
      rw [demand, demand]
      split
      · exact Quota.le_refl 0
      · exact Quota.le_add_right _ _
  | constantAssignment | jumpZero | jumpEqualConstant | jumpEqualVariable => exact Quota.le_add_right _ _
  | _ => exact Quota.le_refl _

/-! ## Needs of blocks -/

/-- The names that some rounds of expansion draw for some instructions. -/
def codeDemand (registry : Registry) (rounds : Nat) (code : List Instruction) : Quota :=
  (code.map fun instruction => instruction.operation.demand registry rounds).sum

section Code

variable {registry : Registry} {rounds : Nat} {code others : List Instruction} {instruction : Instruction}

@[simp] theorem codeDemand_nil : codeDemand registry rounds [] = 0 := rfl

@[simp] theorem codeDemand_cons : codeDemand registry rounds (instruction :: code) =
    instruction.operation.demand registry rounds + codeDemand registry rounds code :=
  List.sum_cons

@[simp] theorem codeDemand_append : codeDemand registry rounds (code ++ others) =
    codeDemand registry rounds code + codeDemand registry rounds others := by
  rw [codeDemand, List.map_append, List.sum_append]
  rfl

@[simp] theorem codeDemand_replicate (count : Nat) : codeDemand registry rounds (.replicate count instruction) =
    count • instruction.operation.demand registry rounds := by
  rw [codeDemand, List.map_replicate, List.sum_replicate]

@[simp] theorem codeDemand_zero : codeDemand registry 0 code = 0 := by
  induction code with
  | nil => rfl
  | cons instruction rest ih => rw [codeDemand_cons, Operation.demand_zero, ih, add_zero]

theorem codeDemand_labelFirst (label : Label) :
    codeDemand registry rounds (labelFirst label code) = codeDemand registry rounds code := by
  cases code <;> rfl

end Code

namespace Inlining.Frame

variable {registry : Registry} {frame : Frame} {callee : Routine} {rounds : Nat}

theorem demand_bind {slot : Variable} {argument : Argument} (apart : slot ∉ argument.vars) :
    (bind slot argument).demand registry rounds = argument.demand rounds (Operation.demand registry rounds) := by
  cases argument with
  | var name =>
      have different : slot ≠ name := fun same => apart (by simp [Argument.vars, same])
      rw [bind, Operation.demand, if_neg different, Argument.demand]
  | call function arguments =>
      have same : (⟨function, arguments⟩ : Call).mapVars id = ⟨function, arguments⟩ := by
        rw [Call.mapVars, Argument.mapVarsAll_id]
      rw [bind, Argument.demand, ← Operation.demand_quote rounds slot .result ⟨function, arguments⟩, same]

/-- The copies of some instructions need what the instructions need. -/
theorem codeDemand_copies (fits : frame.Fits callee) (covered : callee.Covered) (distinct : frame.draft.works.Nodup) :
    codeDemand registry rounds (callee.instructions.map (frame.copyOf callee)) =
      codeDemand registry rounds callee.instructions := by
  rw [codeDemand, List.map_map]
  congr 1
  refine List.map_congr_left fun original member => ?_
  have injective : ∀ left ∈ original.operation.vars, ∀ right ∈ original.operation.vars,
      frame.renameVar callee left = frame.renameVar callee right → left = right :=
    fun left inLeft right inRight => renameVar_injOn fits covered.distinct distinct
      (covered.known member inLeft) (covered.known member inRight)
  simp only [Function.comp_apply, copyOf, Instruction.mapLabels, Instruction.mapVars,
    Operation.demand_mapTarget, Operation.demand_mapVars rounds injective]

theorem codeDemand_clear (fits : frame.Fits callee) :
    codeDemand registry rounds frame.clear = (1 + (localVars callee).length) • Quota.clearing rounds := by
  have each : ∀ name : Variable, (Instruction.plain (.zeroVariable name)).operation.demand registry rounds =
      Quota.clearing rounds := fun name => by rw [Instruction.plain, Operation.demand]
  simp only [codeDemand, clear, List.map_map, Function.comp_def, each, List.map_const', List.sum_replicate,
    List.length_cons, fits.locals, Nat.add_comm]

theorem codeDemand_bindings {arguments : List Argument} (length : frame.slots.length = arguments.length)
    (apart : ∀ slot ∈ frame.slots, ∀ argument ∈ arguments, slot ∉ argument.vars) :
    codeDemand registry rounds (frame.bindings arguments) =
      (arguments.map (Argument.demand rounds (Operation.demand registry rounds))).sum := by
  have bound : (frame.bindings arguments).map (fun instruction => instruction.operation.demand registry rounds) =
      ((frame.slots.zip arguments).map Prod.snd).map (Argument.demand rounds (Operation.demand registry rounds)) := by
    rw [bindings, List.map_map, List.map_map]
    refine List.map_congr_left ?_
    rintro ⟨slot, argument⟩ paired
    obtain ⟨inSlots, inArguments⟩ := List.of_mem_zip paired
    exact demand_bind (apart slot inSlots argument inArguments)
  rw [codeDemand, bound, List.map_snd_zip length.ge]

theorem demand_tail {subject : Variable} (different : subject ≠ frame.answer) (use : Use) :
    (frame.tail subject use).operation.demand registry rounds = use.demand rounds := by
  cases use with
  | assign => simp only [tail, Instruction.labeled, Use.operation, Operation.demand, if_neg different, Use.demand]
  | compare target => simp only [tail, Instruction.labeled, Use.operation, Operation.demand, Use.demand]

end Inlining.Frame

@[simp] theorem Instruction.operation_plain (operation : Operation) : (plain operation).operation = operation :=
  rfl

@[simp] theorem Instruction.operation_labeled (label : Label) (operation : Operation) :
    (labeled label operation).operation = operation :=
  rfl

namespace Block

variable {registry : Registry} {rounds : Nat} {subject other : Variable}

theorem codeDemand_constant (value : UInt64) (pump after : Label) (count : Variable) :
    codeDemand registry rounds (constant subject value pump after count) = .clearing rounds + .leap rounds := by
  simp [constant]

theorem codeDemand_copy (drain refill done : Label) (store : Variable) :
    codeDemand registry rounds (copy subject other drain refill done store) =
      .clearing rounds + .leap rounds := by
  simp [copy]

theorem codeDemand_jumpIfConstant {rest : Variable} (apart : rest ≠ subject) (value : UInt64)
    (target different : Label) :
    codeDemand registry rounds (jumpIfConstant subject value target different rest) =
      .copy rounds + value.toNat • .zeroTest rounds + .leap rounds := by
  -- Each unit of the constant has one test, which is the only synthetic instruction of its pair.
  have tests (count : Nat) : codeDemand registry rounds
      (List.replicate count [.plain (.jumpZero rest different), .plain (.decrease rest)]).flatten =
        count • .zeroTest rounds := by
    induction count with
    | zero => simp
    | succ count ih =>
        simp [List.replicate_succ, ih, succ_nsmul']
  simp [jumpIfConstant, tests, apart, add_assoc]

theorem codeDemand_jumpIfEqual {left right : Variable} (leftApart : left ≠ subject) (rightApart : right ≠ other)
    (target again check different : Label) :
    codeDemand registry rounds (jumpIfEqual subject other target again check different left right) =
      2 • .copy rounds + 3 • .zeroTest rounds + .leap rounds := by
  have parts : codeDemand registry rounds (jumpIfEqual subject other target again check different left right) =
      .copy rounds + (.copy rounds + (.zeroTest rounds + (.zeroTest rounds + (.leap rounds + .zeroTest rounds)))) := by
    simp [jumpIfEqual, leftApart, rightApart]
  rw [parts]
  ext <;> simp <;> omega

end Block

theorem Inlining.Frame.codeDemand_block {registry : Registry} {frame : Frame} {callee : Routine} {call : Call}
    {subject : Variable} (fits : frame.Fits callee) (covered : callee.Covered)
    (found : registry[call.function]? = some callee) (arity : callee.inputs.length = call.arguments.length)
    (distinct : frame.draft.works.Nodup) (different : subject ≠ frame.answer)
    (apart : ∀ slot ∈ frame.slots, ∀ argument ∈ call.arguments, slot ∉ argument.vars) (use : Use) (rounds : Nat) :
    codeDemand registry rounds (frame.block subject callee call.arguments use) =
      call.demand registry rounds (Operation.demand registry rounds) use := by
  have anchor : (Instruction.plain (.neutral subject)).operation.demand registry rounds = 0 :=
    Operation.demand_of_basic rounds rfl
  rw [block, codeDemand_cons, anchor, zero_add, codeDemand_append, codeDemand_append, codeDemand_append,
    codeDemand_clear fits, codeDemand_bindings (fits.slots.trans arity) apart,
    codeDemand_copies fits covered distinct, codeDemand_cons, demand_tail different, codeDemand_nil, add_zero,
    Call.demand, found]
  rfl

namespace Operation.StandsFor

variable {registry : Registry} {operation : Operation} {draft : Draft} {block : List Instruction}

/-- An operation needs what its block needs in the rounds that are left, on top of the names of the block. -/
theorem demand_succ (stands : operation.StandsFor registry draft block)
    (covered : ∀ {name : String} {callee : Routine}, registry[name]? = some callee → callee.Covered)
    (works : draft.works.Nodup) (unused : ∀ name ∈ operation.vars, name ∉ draft.works) (rounds : Nat) :
    operation.demand registry (rounds + 1) =
      operation.demand registry 1 + codeDemand registry rounds block := by
  cases stands with
  | composition subject call use callee frame composed found arity fits =>
      subst composed
      have given : ∀ {name}, name = subject ∨ name ∈ call.vars → name ∉ frame.draft.works := by
        intro name given
        refine unused name ?_
        cases use <;> simpa [Use.composition, vars] using given
      have apart : ∀ slot ∈ frame.slots, ∀ argument ∈ call.arguments, slot ∉ argument.vars := by
        intro slot inSlots argument inArguments occurs
        refine given (.inr ?_) (List.mem_append_left _ (List.mem_cons_of_mem _ inSlots))
        rw [Call.vars, Argument.varsAll_eq_flatMap]
        exact List.mem_flatMap_of_mem inArguments occurs
      have different : subject ≠ frame.answer := by
        rintro rfl
        exact given (.inl rfl) List.mem_cons_self
      rw [demand_composition, demand_composition, Call.demand_zero, add_zero,
        frame.codeDemand_block fits (covered found) found arity works different apart]
  | copySelf => simp
  | zero | goto | jumpIfZero =>
      simp only [demand, Block.zero, Block.goto, Block.jumpIfZero, codeDemand_cons, codeDemand_nil,
        Instruction.operation_plain, Instruction.operation_labeled, zero_add, add_zero]
      rfl
  | constant =>
      rw [Block.codeDemand_constant]
      rfl
  | copy different =>
      rw [Block.codeDemand_copy, demand, demand, if_neg different, if_neg different]
      rfl
  | @jumpIfConstant subject value target different rest =>
      have apart : rest ≠ subject := fun same => unused subject (by simp [vars]) (by simp [same])
      rw [Block.codeDemand_jumpIfConstant apart]
      rfl
  | @jumpIfEqual subject other target again check different left right =>
      have leftApart : left ≠ subject := fun same => unused subject (by simp [vars]) (by simp [same])
      have rightApart : right ≠ other := fun same => unused other (by simp [vars]) (by simp [same])
      rw [Block.codeDemand_jumpIfEqual leftApart rightApart]
      rfl

end Operation.StandsFor

/-! ## Needs of expansions -/

namespace Routine

/-- For an expansion of the selected positions. -/
def demandSelected (routine : Routine) (registry : Registry) (rounds : Nat) (selected : Nat → Bool) : Quota :=
  (routine.instructions.zipIdx.map fun (instruction, position) =>
    if selected position then instruction.operation.demand registry rounds else 0).sum

/-- For an expansion of all instructions. -/
def demand (routine : Routine) (registry : Registry) (rounds : Nat) : Quota :=
  routine.demandSelected registry rounds fun _ => true

/-- For an expansion of the instruction with a key. -/
def demandSingle (routine : Routine) (registry : Registry) (key : String) (rounds : Nat) : Quota :=
  match routine.find key with
  | .ok position => routine.demandSelected registry rounds (· = position)
  | .error _ => 0

end Routine

end CounterMachine
