import CounterMachine.Proofs.Degrees
import CounterMachine.Routine.Measuring
set_option autoImplicit false

/-!
# Measured degrees

Measuring comes to an end for every registry, also where functions call themselves or are missing: entering a
body puts a name of the registry on the stack, and a name on the stack is not entered again. Every name is
taken off before the next sibling is measured, so the stack is left as it was found, and the result does not
depend on the order of instructions and of arguments.
-/

namespace CounterMachine

/-! ## Work on a stack -/

namespace Measuring

variable {α β : Type} {stack middle : List String}

/-- The work comes to an end with a result, and leaves the stack as it was. -/
def Yields (work : Measuring α) (stack : List String) (result : α) : Prop :=
  work stack = some (result, stack)

theorem bind_of_some {first : Measuring α} {second : α → Measuring β} {value : α}
    (ran : first stack = some (value, middle)) : (first >>= second) stack = second value middle := by
  change (first stack).bind (fun pair => second pair.1 pair.2) = _
  rw [ran]
  rfl

theorem get_bind (later : List String → Measuring β) : (get >>= later) stack = later stack stack :=
  rfl

theorem modify_bind (change : List String → List String) (later : PUnit → Measuring β) :
    (modify change >>= later) stack = later ⟨⟩ (change stack) :=
  rfl

theorem Yields.pure (value : α) : Yields (pure value : Measuring α) stack value :=
  rfl

theorem Yields.bind {first : Measuring α} {second : α → Measuring β} {value : α} {result : β}
    (ran : first.Yields stack value) (later : (second value).Yields stack result) :
    (first >>= second).Yields stack result :=
  (bind_of_some ran).trans later

theorem Yields.mapM {work : α → Measuring β} {result : α → β} {members : List α}
    (each : ∀ member ∈ members, (work member).Yields stack (result member)) :
    (members.mapM work).Yields stack (members.map result) := by
  induction members with
  | nil => exact .pure []
  | cons member rest ih =>
      rw [List.forall_mem_cons] at each
      rw [List.mapM_cons]
      exact each.1.bind ((ih each.2).bind (.pure _))

end Measuring

/-! ## Degrees from the degrees of bodies -/

section Bodies

variable {function : String → Measuring Nat} {stack : List String} {body : String → Nat}

mutual

/-- What is measured of an argument, if the bodies of functions are measured right. -/
theorem Argument.measure_yields (functions : ∀ name, (function name).Yields stack (body name)) :
    (argument : Argument) → (argument.measure function).Yields stack (argument.degree body)
  | .var _ => by
      rw [measure, degree]
      exact .pure _
  | .call name arguments => by
      rw [measure, degree]
      exact (functions name).bind ((Argument.measureAll_yields functions arguments).bind (.pure _))

theorem Argument.measureAll_yields (functions : ∀ name, (function name).Yields stack (body name)) :
    (arguments : List Argument) →
    (Argument.measureAll function arguments).Yields stack (Argument.degreeAll body arguments)
  | [] => by
      rw [measureAll, degreeAll]
      exact .pure _
  | argument :: rest => by
      rw [measureAll, degreeAll]
      exact (Argument.measure_yields functions argument).bind
        ((Argument.measureAll_yields functions rest).bind (.pure _))

end

variable (functions : ∀ name, (function name).Yields stack (body name))

include functions

theorem Call.measure_yields (call : Call) : (call.measure function).Yields stack (call.degree body) :=
  (functions _).bind ((Argument.measureAll_yields functions call.arguments).bind (.pure _))

theorem Operation.measure_yields (operation : Operation) :
    (operation.measure function).Yields stack (operation.degree body) := by
  cases operation with
  | quote subject call | jumpEqualFunction subject call target =>
      exact (call.measure_yields functions).bind (.pure _)
  | _ => exact .pure _

theorem measureCode_yields (code : List Instruction) :
    (measureCode function code).Yields stack (degreeOf body code) :=
  .bind (.mapM fun instruction _ => instruction.operation.measure_yields functions) (.pure _)

end Bodies

/-! ## The stack and the registry -/

namespace Registry

/-- The functions that are not under way. -/
def without (registry : Registry) (stack : List String) : Registry :=
  stack.foldr (fun name rest => rest.erase name) registry

theorem getElem?_without (registry : Registry) (stack : List String) (name : String) :
    (registry.without stack)[name]? = if name ∈ stack then none else registry[name]? := by
  induction stack with
  | nil => rfl
  | cons first rest ih =>
      have erased : (registry.without (first :: rest))[name]? = ((registry.without rest).erase first)[name]? := rfl
      rw [erased, Std.ExtTreeMap.getElem?_erase, ih]
      simp only [Std.LawfulEqCmp.compare_eq_iff_eq, List.mem_cons]
      by_cases same : first = name
      · simp [same]
      · simp [same, Ne.symm same]

theorem size_without_le (registry : Registry) (stack : List String) :
    (registry.without stack).size ≤ registry.size := by
  induction stack with
  | nil => exact Nat.le_refl _
  | cons name rest ih => exact Nat.le_trans Std.ExtTreeMap.size_erase_le ih

/-- The body of a function counts what it counts in the registry without the functions under way. Each body
that is entered takes one more function out of it, so the fuel lasts. -/
theorem measureBody_yields (registry : Registry) {fuel : Nat} {stack : List String}
    (enough : (registry.without stack).size < fuel) (name : String) :
    (registry.measureBody fuel name).Yields stack ((registry.without stack).bodyDegree name) := by
  induction fuel generalizing stack name with
  | zero => exact (Nat.not_lt_zero _ enough).elim
  | succ fuel ih =>
      have entry := registry.getElem?_without stack name
      rw [measureBody]
      cases found : registry[name]? with
      | none =>
          rw [bodyDegree_of_none (by rw [entry, found, ite_self])]
          exact .pure 0
      | some callee =>
          refine (Measuring.get_bind _).trans ?_
          by_cases under : name ∈ stack
          · rw [bodyDegree_of_none (by rw [entry, if_pos under]), if_pos (List.contains_iff_mem.mpr under)]
            rfl
          · rw [if_neg under, found] at entry
            rw [bodyDegree_of_some entry, if_neg (by simpa using under)]
            have smaller := size_erase_lt entry
            have inner := measureCode_yields (fun other => @ih (name :: stack) (by
              change ((registry.without stack).erase name).size < fuel
              omega) other) callee.instructions
            refine (Measuring.modify_bind _ _).trans ?_
            exact (Measuring.bind_of_some inner).trans rfl

end Registry

/-! ## Other orders -/

mutual

/-- The same argument, with the arguments of its calls in another order. -/
inductive Argument.Shuffled : Argument → Argument → Prop where
  | var {name : Variable} : Argument.Shuffled (.var name) (.var name)
  | call {function : String} {arguments others : List Argument}
      (shuffled : Argument.ShuffledAll arguments others) :
      Argument.Shuffled (.call function arguments) (.call function others)

/-- The same arguments in another order, each with the arguments of its calls in another order. -/
inductive Argument.ShuffledAll : List Argument → List Argument → Prop where
  | nil : Argument.ShuffledAll [] []
  | cons {argument other : Argument} {rest others : List Argument} (first : Argument.Shuffled argument other)
      (later : Argument.ShuffledAll rest others) : Argument.ShuffledAll (argument :: rest) (other :: others)
  | swap {first second : Argument} {rest : List Argument} :
      Argument.ShuffledAll (first :: second :: rest) (second :: first :: rest)
  | trans {arguments middle others : List Argument} (first : Argument.ShuffledAll arguments middle)
      (second : Argument.ShuffledAll middle others) : Argument.ShuffledAll arguments others

end

/-- The same call with arguments in another order. -/
inductive Call.Shuffled : Call → Call → Prop where
  | intro {function : String} {arguments others : List Argument}
      (shuffled : Argument.ShuffledAll arguments others) : Call.Shuffled ⟨function, arguments⟩ ⟨function, others⟩

/-- The same operation, with a call whose arguments are in another order. -/
inductive Operation.Shuffled : Operation → Operation → Prop where
  | refl {operation : Operation} : Operation.Shuffled operation operation
  | quote {subject : Variable} {call other : Call} (shuffled : call.Shuffled other) :
      Operation.Shuffled (.quote subject call) (.quote subject other)
  | jumpEqualFunction {subject : Variable} {call other : Call} {target : Label}
      (shuffled : call.Shuffled other) :
      Operation.Shuffled (.jumpEqualFunction subject call target) (.jumpEqualFunction subject other target)

/-- The same instruction, with a call whose arguments are in another order. -/
structure Instruction.Shuffled (instruction other : Instruction) : Prop where
  label : instruction.label = other.label
  operation : instruction.operation.Shuffled other.operation

/-- The same instructions in another order, each with the arguments of its call in another order. -/
def CodeShuffled (code other : List Instruction) : Prop :=
  ∃ middle, code.Perm middle ∧ List.Forall₂ Instruction.Shuffled middle other

/-- The same function, with its current instructions in another order. -/
structure Routine.Shuffled (routine other : Routine) : Prop where
  name : routine.name = other.name
  code : CodeShuffled routine.instructions other.instructions

/-- The same functions by name, with their current instructions in another order. -/
def Registry.Shuffled (registry other : Registry) : Prop :=
  ∀ name : String, Option.Rel Routine.Shuffled registry[name]? other[name]?

mutual

theorem Argument.Shuffled.refl : (argument : Argument) → argument.Shuffled argument
  | .var _ => .var
  | .call _ arguments => .call (Argument.ShuffledAll.refl arguments)

theorem Argument.ShuffledAll.refl : (arguments : List Argument) → Argument.ShuffledAll arguments arguments
  | [] => .nil
  | argument :: rest => .cons (Argument.Shuffled.refl argument) (Argument.ShuffledAll.refl rest)

end

theorem Argument.ShuffledAll.of_perm {arguments others : List Argument} (same : arguments.Perm others) :
    Argument.ShuffledAll arguments others := by
  induction same with
  | nil => exact .nil
  | cons argument _ ih => exact .cons (.refl argument) ih
  | swap second first rest => exact .swap
  | trans _ _ first later => exact .trans first later

theorem Instruction.Shuffled.refl (instruction : Instruction) : instruction.Shuffled instruction :=
  ⟨rfl, .refl⟩

theorem CodeShuffled.of_perm {code other : List Instruction} (same : code.Perm other) :
    CodeShuffled code other :=
  ⟨other, same, List.forall₂_same.mpr fun instruction _ => .refl instruction⟩

section Orders

variable {body : String → Nat}

mutual

theorem Argument.Shuffled.degree_eq {argument other : Argument} (shuffled : argument.Shuffled other) :
    argument.degree body = other.degree body := by
  match shuffled with
  | .var => rfl
  | .call shuffled => rw [Argument.degree, Argument.degree, shuffled.degreeAll_eq]
termination_by structural shuffled

theorem Argument.ShuffledAll.degreeAll_eq {arguments others : List Argument}
    (shuffled : Argument.ShuffledAll arguments others) :
    Argument.degreeAll body arguments = Argument.degreeAll body others := by
  match shuffled with
  | .nil => rfl
  | .cons first later => rw [Argument.degreeAll, Argument.degreeAll, first.degree_eq, later.degreeAll_eq]
  | .swap => simp only [Argument.degreeAll, Nat.max_left_comm]
  | .trans first second => exact first.degreeAll_eq.trans second.degreeAll_eq
termination_by structural shuffled

end

theorem Call.Shuffled.degree_eq {call other : Call} (shuffled : call.Shuffled other) :
    call.degree body = other.degree body := by
  obtain ⟨shuffled⟩ := shuffled
  rw [Call.degree, Call.degree, shuffled.degreeAll_eq]

theorem Operation.Shuffled.degree_eq {operation other : Operation} (shuffled : operation.Shuffled other) :
    operation.degree body = other.degree body := by
  cases shuffled with
  | refl => rfl
  | quote shuffled | jumpEqualFunction shuffled => simp only [Operation.degree, shuffled.degree_eq]

theorem CodeShuffled.degreeOf_eq {code other : List Instruction} (shuffled : CodeShuffled code other) :
    degreeOf body code = degreeOf body other := by
  obtain ⟨middle, same, each⟩ := shuffled
  have permuted : degreeOf body code = degreeOf body middle := by
    refine eq_of_forall_ge_iff fun bound => ?_
    simp only [degreeOf_le, same.mem_iff]
  have degrees : middle.map (fun instruction => instruction.operation.degree body) =
      other.map fun instruction => instruction.operation.degree body := by
    clear same permuted
    induction each with
    | nil => rfl
    | cons first _ ih => rw [List.map_cons, List.map_cons, first.operation.degree_eq, ih]
  rw [permuted, degreeOf, degreeOf, degrees]

end Orders

namespace Registry.Shuffled

variable {registry other : Registry}

theorem add (shuffled : registry.Shuffled other) {routine similar : Routine} (same : routine.Shuffled similar) :
    Registry.Shuffled (registry.add routine) (other.add similar) := by
  intro function
  rw [Registry.add, Registry.add, Std.ExtTreeMap.getElem?_insert, Std.ExtTreeMap.getElem?_insert, same.name]
  split
  · exact .some same
  · exact shuffled function

theorem erase (shuffled : registry.Shuffled other) (name : String) :
    Registry.Shuffled (registry.erase name) (other.erase name) := by
  intro function
  rw [Std.ExtTreeMap.getElem?_erase, Std.ExtTreeMap.getElem?_erase]
  split
  · exact .none
  · exact shuffled function

theorem without (shuffled : registry.Shuffled other) (stack : List String) :
    (registry.without stack).Shuffled (other.without stack) := by
  induction stack with
  | nil => exact shuffled
  | cons name rest ih => exact ih.erase name

theorem size_eq (shuffled : registry.Shuffled other) : registry.size = other.size := by
  have members (name : String) : name ∈ registry.keys ↔ name ∈ other.keys := by
    rw [Std.ExtTreeMap.mem_keys, Std.ExtTreeMap.mem_keys, Std.ExtTreeMap.mem_iff_isSome_getElem?,
      Std.ExtTreeMap.mem_iff_isSome_getElem?]
    have entries := shuffled name
    generalize registry[name]? = entry, other[name]? = similar at entries ⊢
    cases entries <;> rfl
  have distinct (registry : Registry) : registry.keys.Nodup :=
    registry.distinct_keys.imp fun differ same => differ (Std.LawfulEqCmp.compare_eq_iff_eq.mpr same)
  have same := (List.perm_ext_iff_of_nodup (distinct registry) (distinct other)).mpr members
  rw [← Std.ExtTreeMap.length_keys, same.length_eq, Std.ExtTreeMap.length_keys]

theorem bodyDegree_eq (shuffled : registry.Shuffled other) : registry.bodyDegree = other.bodyDegree := by
  -- Entering a body erases its function, so the induction is on the size of the registry.
  induction size : registry.size using Nat.strong_induction_on generalizing registry other with
  | _ _ ih =>
      subst size
      funext name
      have entries := shuffled name
      cases found : registry[name]? with
      | none =>
          rw [found] at entries
          cases missing : other[name]? with
          | none => rw [bodyDegree_of_none found, bodyDegree_of_none missing]
          | some similar => rw [missing] at entries; cases entries
      | some routine =>
          rw [found] at entries
          cases present : other[name]? with
          | none => rw [present] at entries; cases entries
          | some similar =>
              rw [present] at entries
              obtain ⟨same⟩ := entries
              rw [bodyDegree_of_some found, bodyDegree_of_some present,
                ih _ (size_erase_lt found) (shuffled.erase name) rfl, same.code.degreeOf_eq]

end Registry.Shuffled

/-! ## Measuring in any order -/

/-- With fuel for all functions of the registry, measuring comes to an end from every stack, and leaves the
stack as it was. The result stays the same if instructions of the routine or of registered functions, or
arguments of calls, are put in another order. -/
theorem Registry.measuring_settled (registry : Registry) {fuel : Nat} (enough : registry.size < fuel) :
    (∀ (call : Call) (stack : List String), ∃ degree,
      (call.measure (registry.measureBody fuel)).Yields stack degree ∧
      ∀ shuffled other, registry.Shuffled shuffled → call.Shuffled other →
        (other.measure (shuffled.measureBody fuel)).Yields stack degree) ∧
    (∀ (operation : Operation) (stack : List String), ∃ degree,
      (operation.measure (registry.measureBody fuel)).Yields stack degree ∧
      ∀ shuffled other, registry.Shuffled shuffled → operation.Shuffled other →
        (other.measure (shuffled.measureBody fuel)).Yields stack degree) ∧
    (∀ (code : List Instruction) (stack : List String), ∃ degree,
      (measureCode (registry.measureBody fuel) code).Yields stack degree ∧
      ∀ shuffled other, registry.Shuffled shuffled → CodeShuffled code other →
        (measureCode (shuffled.measureBody fuel) other).Yields stack degree) ∧
    (∀ instruction : Instruction,
      registry.measureInstruction fuel instruction = some (registry.instructionDegree instruction) ∧
      ∀ shuffled other, registry.Shuffled shuffled → instruction.Shuffled other →
        shuffled.measureInstruction fuel other = some (registry.instructionDegree instruction)) ∧
    ∀ routine : Routine, routine.measure registry fuel = some (routine.degree registry) ∧
      ∀ shuffled other, registry.Shuffled shuffled → routine.Shuffled other →
        other.measure shuffled fuel = some (routine.degree registry) := by
  have functions (stack : List String) (name : String) :
      (registry.measureBody fuel name).Yields stack ((registry.without stack).bodyDegree name) :=
    registry.measureBody_yields (Nat.lt_of_le_of_lt (registry.size_without_le stack) enough) name
  have others {shuffled : Registry} (same : registry.Shuffled shuffled) (stack : List String) (name : String) :
      (shuffled.measureBody fuel name).Yields stack ((registry.without stack).bodyDegree name) := by
    rw [(same.without stack).bodyDegree_eq]
    exact shuffled.measureBody_yields
      (Nat.lt_of_le_of_lt (shuffled.size_without_le stack) (same.size_eq ▸ enough)) name
  refine ⟨fun call stack => ?_, fun operation stack => ?_, fun code stack => ?_, fun instruction => ?_,
    fun routine => ?_⟩
  · refine ⟨_, call.measure_yields (functions stack), fun shuffled other same similar => ?_⟩
    rw [similar.degree_eq]
    exact other.measure_yields (others same stack)
  · refine ⟨_, operation.measure_yields (functions stack), fun shuffled other same similar => ?_⟩
    rw [similar.degree_eq]
    exact other.measure_yields (others same stack)
  · refine ⟨_, measureCode_yields (functions stack) code, fun shuffled other same similar => ?_⟩
    rw [similar.degreeOf_eq]
    exact measureCode_yields (others same stack) other
  · refine ⟨congrArg _ (instruction.operation.measure_yields (functions [])), fun shuffled other same similar => ?_⟩
    rw [instructionDegree, similar.operation.degree_eq]
    exact congrArg _ (other.operation.measure_yields (others same []))
  · refine ⟨congrArg _ (measureCode_yields (functions [routine.name]) routine.instructions),
      fun shuffled other same similar => ?_⟩
    rw [Routine.degree, similar.name, similar.code.degreeOf_eq]
    exact congrArg _ (measureCode_yields (others same [other.name]) other.instructions)

/-- A function that calls another and, inside the arguments, itself. -/
def leftDefinition : Definition :=
  ⟨"Left", [.plain (.increase .result),
    .plain (.quote .result ⟨"Right", [.var (.input 1), .call "Left" [.var (.input 2), .call "Gone" []]]⟩)]⟩

/-- The same function in another order, outside and inside its call. -/
def leftReordered : Definition :=
  ⟨"Left", [.plain (.quote .result ⟨"Right", [.call "Left" [.call "Gone" [], .var (.input 2)], .var (.input 1)]⟩),
    .plain (.increase .result)]⟩

/-- A function that calls the first one back. -/
def rightDefinition : Definition :=
  ⟨"Right", [.plain (.quote .result ⟨"Left", [.var (.input 1), .var (.input 1)]⟩)]⟩

/-- Two functions that call each other, and a function that is missing. -/
def leftAndRight : Registry :=
  .add (.add ∅ (.ofDefinition leftDefinition)) (.ofDefinition rightDefinition)

def leftAndRightReordered : Registry :=
  .add (.add ∅ (.ofDefinition leftReordered)) (.ofDefinition rightDefinition)

theorem leftDefinition_shuffled :
    (Routine.ofDefinition leftDefinition).Shuffled (.ofDefinition leftReordered) where
  name := rfl
  code := by
    rw [Routine.instructions_ofDefinition, Routine.instructions_ofDefinition]
    refine ⟨_, .swap _ _ _, .cons ⟨rfl, .quote ⟨?_⟩⟩ (.cons (.refl _) .nil)⟩
    exact .trans .swap (.cons (.call .swap) (.refl _))

theorem leftAndRight_shuffled : leftAndRight.Shuffled leftAndRightReordered := by
  refine .add (.add (fun function => ?_) leftDefinition_shuffled) ⟨rfl, .of_perm (.refl _)⟩
  rw [Std.ExtTreeMap.getElem?_empty]
  exact .none

/-- Five rounds for a function that comes back to itself in its call and in an argument of its call. -/
theorem Routine.leftDefinition_measuring_settled : leftAndRight.size < 3 ∧
    (Routine.ofDefinition leftDefinition).measure leftAndRight 3 = some 5 ∧
    (Routine.ofDefinition leftReordered).measure leftAndRightReordered 3 = some 5 := by
  have enough : leftAndRight.size < 3 := by decide +kernel
  obtain ⟨_, _, _, _, routines⟩ := Registry.measuring_settled leftAndRight enough
  obtain ⟨first, others⟩ := routines (.ofDefinition leftDefinition)
  have degree : (Routine.ofDefinition leftDefinition).degree leftAndRight = 5 := by decide +kernel
  rw [degree] at first others
  exact ⟨enough, first, others _ _ leftAndRight_shuffled leftDefinition_shuffled⟩

end CounterMachine
