import CounterMachine.Proofs.Degrees
import CounterMachine.Proofs.Exhaustion
import CounterMachine.Proofs.Histories
set_option autoImplicit false

/-!
# Degrees and rounds

The degree of an instruction is the number of rounds that it takes until only basic instructions are left. A
round lowers the degree of an instruction by one at least, and some instruction that comes from it by exactly
one, unless it copies a variable to itself. Fresh names keep other copies from becoming such copies.
-/

namespace CounterMachine

open Inlining Relation

/-! ## Functions that are reached -/

namespace Registry

variable {registry : Registry} {names : List String}

/-- Following calls leads from one of some functions to a function. -/
def Reached (registry : Registry) (names : List String) (name : String) : Prop :=
  ∃ first ∈ names, ReflTransGen registry.Calls first name

theorem Reached.calls {caller callee : String} (reached : registry.Reached names caller)
    (calls : registry.Calls caller callee) : registry.Reached names callee := by
  obtain ⟨first, member, path⟩ := reached
  exact ⟨first, member, path.tail calls⟩

/-- The calls in reached functions are known, and no reached function reaches itself. -/
structure Grounded (registry : Registry) (names : List String) : Prop where
  fit : ∀ {name routine}, registry.Reached names name → registry[name]? = some routine →
    CallsFit registry routine.instructions
  acyclic : ∀ {name}, registry.Reached names name → ¬TransGen registry.Calls name name

/-- The calls of an operation are known and lead to reached functions. -/
structure Allows (registry : Registry) (names : List String) (operation : Operation) : Prop where
  fits : ∀ call, operation.call? = some call → call.Fits registry
  reached : ∀ name ∈ operation.calledNames, registry.Reached names name

theorem Allows.reached_call {operation : Operation} (allowed : registry.Allows names operation) {call : Call}
    (calls : operation.call? = some call) : registry.Reached names call.function :=
  allowed.reached _ (Operation.mem_calledNames.mpr ⟨call, calls, call, List.mem_cons_self, rfl⟩)

end Registry

theorem Operation.SelfCopy.of_mapVars {operation : Operation} {rename : Variable → Variable}
    (injective : ∀ left ∈ operation.vars, ∀ right ∈ operation.vars, rename left = rename right → left = right)
    (copies : (operation.mapVars rename).SelfCopy) : operation.SelfCopy := by
  obtain ⟨subject, same⟩ := copies
  cases operation with
  | assignment left right =>
      obtain ⟨first, second⟩ := Operation.assignment.inj same
      obtain rfl := injective left (by simp [vars]) right (by simp [vars]) (first.trans second.symm)
      exact ⟨left, rfl⟩
  | _ => cases same

theorem Operation.SelfCopy.of_mapTarget {operation : Operation} {redirect : Label → Label}
    (copies : (operation.mapTarget redirect).SelfCopy) : operation.SelfCopy := by
  obtain ⟨subject, same⟩ := copies
  cases operation with
  | assignment left right => exact ⟨subject, same⟩
  | _ => cases same

theorem Inlining.Frame.selfCopy_of_copyOf {frame : Frame} {callee : Routine} {instruction : Instruction}
    (injective : ∀ left ∈ instruction.operation.vars, ∀ right ∈ instruction.operation.vars,
      frame.renameVar callee left = frame.renameVar callee right → left = right)
    (copies : (frame.copyOf callee instruction).operation.SelfCopy) : instruction.operation.SelfCopy :=
  copies.of_mapTarget.of_mapTarget.of_mapVars injective

namespace Operation.StandsFor

variable {registry : Registry} {operation : Operation} {draft : Draft} {block : List Instruction}

/-- A block calls what its operation calls, and what the function of a composition calls. -/
theorem called_block (stands : operation.StandsFor registry draft block) :
    ∀ instruction ∈ block, ∀ call, instruction.operation.call? = some call → ∀ inner ∈ call.calls,
      inner.function ∈ operation.calledNames ∨
        ∃ caller ∈ operation.calledNames, registry.Calls caller inner.function := by
  intro instruction member call calls inner nested
  obtain ⟨outer, own, inOuter | ⟨callee, found, original, inBody, source, inSource, called, inCalls, name,
    _⟩⟩ := stands.calls_origin instruction member call calls inner nested
  · exact .inl (mem_calledNames.mpr ⟨outer, own, inner, inOuter, rfl⟩)
  · refine .inr ⟨outer.function, mem_calledNames.mpr ⟨outer, own, outer, List.mem_cons_self, rfl⟩,
      callee, found, ?_⟩
    rw [name]
    exact Routine.mem_calledNames.mpr
      ⟨original, inBody, mem_calledNames.mpr ⟨source, inSource, called, inCalls, rfl⟩⟩

/-- A block calls functions of a class that is closed under calls, if its operation does. -/
theorem known_block (stands : operation.StandsFor registry draft block) {known : String → Prop}
    (closed : ∀ {caller callee}, known caller → registry.Calls caller callee → known callee)
    (within : ∀ name ∈ operation.calledNames, known name) :
    ∀ instruction ∈ block, ∀ name ∈ instruction.operation.calledNames, known name := by
  intro instruction member name called
  obtain ⟨call, calls, inner, nested, rfl⟩ := mem_calledNames.mp called
  rcases stands.called_block instruction member call calls inner nested with own | ⟨caller, own, calls⟩
  · exact within _ own
  · exact closed (within caller own) calls

/-- A block copies no variable to itself, if the function of a composition does not, and if the names of the
block were not in use. -/
theorem not_selfCopy (stands : operation.StandsFor registry draft block)
    (bodies : ∀ {call : Call} {callee : Routine}, operation.call? = some call →
      registry[call.function]? = some callee →
      callee.Covered ∧ ∀ instruction ∈ callee.instructions, ¬instruction.operation.SelfCopy)
    (works : draft.works.Nodup) (unused : ∀ name ∈ operation.vars, name ∉ draft.works) :
    ∀ instruction ∈ block, ¬instruction.operation.SelfCopy := by
  cases stands with
  | composition subject call use callee frame composed found arity fits =>
      have own : operation.call? = some call := by
        subst composed
        cases use <;> rfl
      have given : ∀ {name}, name = subject ∨ name ∈ call.vars → name ∈ operation.vars := by
        subst composed
        cases use <;> simp [Use.composition, vars]
      obtain ⟨covered, distinct⟩ := bodies own found
      rintro instruction member ⟨name, same⟩
      rcases Frame.mem_block.mp member with rfl | ⟨cleared, inFrame, rfl⟩ |
        ⟨slot, argument, paired, rfl⟩ | ⟨original, inBody, rfl⟩ | rfl
      · cases same
      · cases same
      · obtain ⟨inSlots, inArguments⟩ := List.of_mem_zip paired
        cases argument with
        | call function arguments => cases same
        | var name =>
            cases same
            have occurs : name ∈ call.vars := by
              rw [Call.vars, Argument.varsAll_eq_flatMap]
              exact List.mem_flatMap_of_mem inArguments (by simp [Argument.vars])
            exact unused name (given (.inr occurs)) (List.mem_append_left _ (List.mem_cons_of_mem _ inSlots))
      · refine distinct original inBody (Frame.selfCopy_of_copyOf ?_ ⟨name, same⟩)
        intro left inLeft right inRight
        exact Frame.renameVar_injOn fits covered.distinct works (covered.known inBody inLeft)
          (covered.known inBody inRight)
      · cases use with
        | compare target => cases same
        | assign =>
            cases same
            exact unused _ (given (.inl rfl)) List.mem_cons_self
  | _ =>
      simp_all [SelfCopy, vars, Block.zero, Block.goto, Block.constant, Block.copy, Block.jumpIfZero,
        Block.jumpIfConstant, Block.jumpIfEqual, Instruction.plain, Instruction.labeled, or_imp,
        forall_and]

end Operation.StandsFor

namespace Registry.Grounded

variable {registry : Registry} {names : List String} {operation : Operation} {draft : Draft}
  {block : List Instruction}

theorem expands (grounded : registry.Grounded names) : registry.Expands (registry.Allows names) where
  fits := Allows.fits
  unfolds := by
    intro operation draft block allowed stands instruction member
    constructor
    · exact stands.calls_fit (fun calls found => grounded.fit (allowed.reached_call calls) found)
        (fun {call} => allowed.fits call) instruction member
    · exact stands.known_block Reached.calls allowed.reached instruction member

theorem degreeOf_block (grounded : registry.Grounded names) (allowed : registry.Allows names operation)
    (stands : operation.StandsFor registry draft block) :
    degreeOf registry.bodyDegree block + 1 ≤ operation.degree registry.bodyDegree ∧
      (¬operation.SelfCopy →
        degreeOf registry.bodyDegree block + 1 = operation.degree registry.bodyDegree) :=
  stands.degreeOf_block fun calls found =>
    degreeOf_bodyDegree found (grounded.acyclic (allowed.reached_call calls))

end Registry.Grounded

/-! ## Rounds of one instruction -/

namespace Instruction

variable {registry : Registry} {names : List String} {rounds : Nat} {instruction : Instruction}
  {supply next : Supply} {tree : Derivation}

/-- One round of a synthetic instruction, and the rounds that follow. -/
theorem derive_succ (synthetic : instruction.isBasic = false)
    (derived : instruction.derive registry (rounds + 1) supply = .ok (tree, next)) :
    ∃ draft block middle children, instruction.operation.StandsFor registry draft block ∧
      supply.Draws draft middle ∧ tree = .node instruction children ∧
      (labelFirst instruction.label block).mapM (derive registry rounds) middle = .ok (children, next) := by
  rw [derive_synthetic synthetic] at derived
  obtain ⟨block, middle, expanded, derived⟩ := Fresh.bind_ok derived
  obtain ⟨children, last, childrenDerived, derived⟩ := Fresh.bind_ok derived
  obtain ⟨rfl, rfl⟩ := Fresh.pure_ok derived
  obtain ⟨draft, stands, draws⟩ := Operation.expansion_ok synthetic expanded
  exact ⟨draft, block, middle, children, stands, draws, rfl, childrenDerived⟩

theorem derive_of_basic (basic : instruction.isBasic = true)
    (derived : instruction.derive registry rounds supply = .ok (tree, next)) : tree = .leaf instruction := by
  rw [derive_basic basic] at derived
  exact (Fresh.pure_ok derived).1.symm

/-- Every round lowers the degree. -/
theorem degree_derive_le (grounded : registry.Grounded names)
    (allowed : registry.Allows names instruction.operation)
    (derived : instruction.derive registry rounds supply = .ok (tree, next)) :
    ∀ leaf ∈ tree.code, registry.instructionDegree leaf ≤ registry.instructionDegree instruction - rounds := by
  induction rounds generalizing instruction supply next tree with
  | zero =>
      obtain ⟨rfl, _⟩ := Fresh.pure_ok derived
      simp
  | succ rounds ih =>
      cases basic : instruction.isBasic with
      | true =>
          obtain rfl := derive_of_basic basic derived
          have zero : registry.instructionDegree instruction = 0 := isBasic_iff.mp basic
          simp [zero]
      | false =>
          obtain ⟨draft, block, middle, children, stands, _, rfl, ran⟩ := derive_succ basic derived
          have smaller : degreeOf registry.bodyDegree block + 1 ≤ registry.instructionDegree instruction :=
            (grounded.degreeOf_block allowed stands).1
          intro leaf member
          rw [Derivation.code_node, List.mem_flatMap] at member
          obtain ⟨child, inChildren, inChild⟩ := member
          obtain ⟨origin, inBlock, before, after, _, childDerived⟩ :=
            (Fresh.mapM_each derive_grows ran).1 child inChildren
          obtain ⟨original, inBody, same⟩ := exists_of_mem_labelFirst inBlock
          have bound : registry.instructionDegree origin ≤ degreeOf registry.bodyDegree block := by
            rw [Registry.instructionDegree, ← same]
            exact degree_le_degreeOf inBody
          have childAllowed := grounded.expands.unfolds allowed stands original inBody
          have below := ih (same ▸ childAllowed) childDerived leaf inChild
          omega

/-- Some instruction loses exactly one degree in every round, where no variable is copied to itself. -/
theorem exists_degree_derive (grounded : registry.Grounded names)
    (covered : ∀ {name : String} {callee : Routine}, registry[name]? = some callee → callee.Covered)
    (distinct : ∀ {name : String} {callee : Routine}, registry.Reached names name →
      registry[name]? = some callee → ∀ instruction ∈ callee.instructions, ¬instruction.operation.SelfCopy)
    (allowed : registry.Allows names instruction.operation) (copies : ¬instruction.operation.SelfCopy)
    (taken : ∀ name ∈ instruction.operation.vars, .var name ∈ supply.taken)
    (derived : instruction.derive registry rounds supply = .ok (tree, next)) :
    ∃ leaf ∈ tree.code, registry.instructionDegree leaf = registry.instructionDegree instruction - rounds := by
  induction rounds generalizing instruction supply next tree with
  | zero =>
      obtain ⟨rfl, _⟩ := Fresh.pure_ok derived
      exact ⟨instruction, by simp, rfl⟩
  | succ rounds ih =>
      cases basic : instruction.isBasic with
      | true =>
          obtain rfl := derive_of_basic basic derived
          have zero : registry.instructionDegree instruction = 0 := isBasic_iff.mp basic
          exact ⟨instruction, by simp, by rw [zero, Nat.zero_sub]⟩
      | false =>
          obtain ⟨draft, block, middle, children, stands, draws, rfl, ran⟩ := derive_succ basic derived
          have smaller : degreeOf registry.bodyDegree block + 1 = registry.instructionDegree instruction :=
            (grounded.degreeOf_block allowed stands).2 copies
          obtain ⟨unused, blockTaken⟩ := stands.vars_taken covered draws taken
          have nonempty : block ≠ [] := by
            obtain ⟨first, rest, rfl⟩ := stands.starts
            exact List.cons_ne_nil _ _
          -- The induction follows one instruction of the block that has the degree of the whole block. Its
          -- variables are taken, which keeps the names of later rounds apart from them.
          obtain ⟨original, inBody, top⟩ : ∃ original ∈ block,
              registry.instructionDegree original = degreeOf registry.bodyDegree block :=
            exists_degree_eq nonempty
          have originalCopies := stands.not_selfCopy (fun calls found =>
            ⟨covered found, distinct (allowed.reached_call calls) found⟩) draws.avoids.works unused
            original inBody
          obtain ⟨child, inBlock, same⟩ := (exists_mem_labelFirst instruction.label block
            fun operation => operation = original.operation).mpr ⟨original, inBody, rfl⟩
          obtain ⟨childTree, inChildren, before, after, kept, childDerived⟩ :=
            (Fresh.mapM_each derive_grows ran).2 child inBlock
          obtain ⟨leaf, inChild, degree⟩ := ih
            (same ▸ grounded.expands.unfolds allowed stands original inBody) (same ▸ originalCopies)
            (fun name occurs => kept (blockTaken original inBody name (same ▸ occurs))) childDerived
          refine ⟨leaf, ?_, ?_⟩
          · rw [Derivation.code_node]
            exact List.mem_flatMap_of_mem inChildren inChild
          · have equal : registry.instructionDegree child = registry.instructionDegree original :=
              congrArg (Operation.degree registry.bodyDegree) same
            omega

end Instruction

/-! ## Rounds of a routine -/

namespace Routine

variable {registry : Registry} {definition : Definition} {routine next : Routine} {rounds : Nat}

/-- The instructions after an expansion are the leaves that were derived from the instructions before. -/
theorem expand_leaves (consistent : routine.Consistent definition)
    (expanded : routine.expand registry rounds = .ok next) :
    (∀ leaf ∈ next.instructions, ∃ instruction ∈ routine.instructions, ∃ before after tree,
      instruction.derive registry rounds before = .ok (tree, after) ∧ leaf ∈ tree.code) ∧
    ∀ instruction ∈ routine.instructions, ∃ before after tree, routine.supply.taken ⊆ before.taken ∧
      instruction.derive registry rounds before = .ok (tree, after) ∧ tree.code ⊆ next.instructions := by
  obtain ⟨_, trees, supply, derived, instructions⟩ := consistent.expandSelected expanded
  have ran : routine.instructions.zipIdx.mapM (m := Fresh)
      (fun place => place.1.derive registry rounds) routine.supply = .ok (trees, supply) := derived
  obtain ⟨origins, outcomes⟩ := Fresh.mapM_each Instruction.derive_grows ran
  rw [instructions]
  constructor
  · intro leaf member
    obtain ⟨tree, inTrees, inTree⟩ := List.mem_flatMap.mp member
    obtain ⟨place, inPlaces, before, after, _, made⟩ := origins tree inTrees
    have inCode := List.mem_of_getElem? (List.mem_zipIdx_iff_getElem?.mp inPlaces)
    exact ⟨place.1, inCode, before, after, tree, made, inTree⟩
  · intro instruction member
    obtain ⟨position, found⟩ := List.mem_iff_getElem?.mp member
    have inPlaces : (instruction, position) ∈ routine.instructions.zipIdx :=
      List.mk_mem_zipIdx_iff_getElem?.mpr found
    obtain ⟨tree, inTrees, before, after, taken, made⟩ := outcomes _ inPlaces
    exact ⟨before, after, tree, taken, made, fun leaf inTree => List.mem_flatMap_of_mem inTrees inTree⟩

theorem allows (fit : CallsFit registry routine.instructions) :
    ∀ instruction ∈ routine.instructions, registry.Allows routine.calledNames instruction.operation := by
  intro instruction member
  refine ⟨fit instruction member, fun name called => ?_⟩
  exact ⟨name, mem_calledNames.mpr ⟨instruction, member, called⟩, .refl⟩

theorem expand_degree_le (consistent : routine.Consistent definition)
    (fit : CallsFit registry routine.instructions) (grounded : registry.Grounded routine.calledNames)
    (expanded : routine.expand registry rounds = .ok next) :
    ∀ instruction ∈ next.instructions,
      registry.instructionDegree instruction ≤ degreeOf registry.bodyDegree routine.instructions - rounds := by
  intro leaf member
  obtain ⟨instruction, inCode, before, after, tree, derived, inTree⟩ :=
    (expand_leaves consistent expanded).1 leaf member
  have below := Instruction.degree_derive_le grounded (allows fit instruction inCode) derived leaf inTree
  have top : registry.instructionDegree instruction ≤ degreeOf registry.bodyDegree routine.instructions :=
    degree_le_degreeOf inCode
  omega

theorem expand_isBasic (consistent : routine.Consistent definition)
    (fit : CallsFit registry routine.instructions) (grounded : registry.Grounded routine.calledNames)
    (expanded : routine.expand registry rounds = .ok next)
    (enough : degreeOf registry.bodyDegree routine.instructions ≤ rounds) : next.isBasic = true := by
  refine List.all_eq_true.mpr fun instruction member => ?_
  have below := expand_degree_le consistent fit grounded expanded instruction member
  have zero : registry.instructionDegree instruction = 0 := by omega
  exact Instruction.isBasic_iff.mpr zero

theorem expand_not_isBasic (consistent : routine.Consistent definition)
    (covered : ∀ {name : String} {callee : Routine}, registry[name]? = some callee → callee.Covered)
    (fit : CallsFit registry routine.instructions) (grounded : registry.Grounded routine.calledNames)
    (copies : ∀ instruction ∈ routine.instructions, ¬instruction.operation.SelfCopy)
    (distinct : ∀ {name : String} {callee : Routine}, registry.Reached routine.calledNames name →
      registry[name]? = some callee → ∀ instruction ∈ callee.instructions, ¬instruction.operation.SelfCopy)
    (expanded : routine.expand registry rounds = .ok next)
    (fewer : rounds < degreeOf registry.bodyDegree routine.instructions) : next.isBasic = false := by
  obtain ⟨instruction, inCode, top⟩ : ∃ instruction ∈ routine.instructions,
      registry.instructionDegree instruction = degreeOf registry.bodyDegree routine.instructions :=
    attained (fun bound => degreeOf_le) (by omega)
  obtain ⟨before, after, tree, taken, derived, kept⟩ :=
    (expand_leaves consistent expanded).2 instruction inCode
  obtain ⟨leaf, inTree, degree⟩ := Instruction.exists_degree_derive grounded covered distinct
    (allows fit instruction inCode) (copies instruction inCode)
    (fun name occurs => taken (mem_varsInUse inCode occurs)) derived
  refine List.all_eq_false.mpr ⟨leaf, kept inTree, fun basic => ?_⟩
  have zero : registry.instructionDegree leaf = 0 := Instruction.isBasic_iff.mp basic
  omega

/-- The degree of a routine is the number of rounds after which it is basic. With `degree` the largest degree
of its instructions, no instruction has more than `degree - rounds` left after some rounds; and where neither
the routine nor a function it reaches copies a variable to itself, fewer rounds than `degree` do not make it
basic. Rounds fail only if the names that they need are not left. -/
theorem degree_counts_rounds (becomes : definition.Becomes (fun _ => True) routine)
    (built : ∀ {name : String} {function : Routine}, registry[name]? = some function →
      ∃ source, function = .ofDefinition source)
    (fit : CallsFit registry routine.instructions) (grounded : registry.Grounded routine.calledNames)
    (rounds : Nat) :
    (∃ next, routine.expand registry rounds = .ok next ∧
      (∀ instruction ∈ next.instructions, registry.instructionDegree instruction ≤
        degreeOf registry.bodyDegree routine.instructions - rounds) ∧
      (degreeOf registry.bodyDegree routine.instructions ≤ rounds → next.isBasic = true) ∧
      ((∀ instruction ∈ routine.instructions, ¬instruction.operation.SelfCopy) →
        (∀ (name : String) (function : Routine), registry.Reached routine.calledNames name →
          registry[name]? = some function →
          ∀ instruction ∈ function.instructions, ¬instruction.operation.SelfCopy) →
        rounds < degreeOf registry.bodyDegree routine.instructions → next.isBasic = false)) ∨
    (routine.expand registry rounds = .error .namesExhausted ∧
      ¬routine.demand registry rounds ≤ routine.supply.free) := by
  have consistent := becomes.consistent
  have covered : ∀ {name : String} {callee : Routine}, registry[name]? = some callee → callee.Covered := by
    intro name callee found
    obtain ⟨source, rfl⟩ := built found
    exact covered_ofDefinition source
  rcases expandSelected_within grounded.expands covered (allows fit) rounds (fun _ => true) with
    ⟨⟨next, expanded⟩, _⟩ | short
  · refine .inl ⟨next, expanded, expand_degree_le consistent fit grounded expanded,
      expand_isBasic consistent fit grounded expanded, ?_⟩
    intro copies distinct
    exact expand_not_isBasic consistent covered fit grounded copies
      (fun reached found => distinct _ _ reached found) expanded
  · exact .inr short

end Routine

def nextDefinition : Definition :=
  ⟨"Next", [.plain (.assignment .result (.input 1)), .plain (.increase .result)]⟩

/-- A function that calls another one twice, once inside the arguments. -/
def twiceDefinition : Definition :=
  ⟨"Twice", [.plain (.quote .result ⟨"Next", [.call "Next" [.var (.input 1)]]⟩)]⟩

def nextAndTwice : Registry :=
  .add (.add ∅ (.ofDefinition nextDefinition)) (.ofDefinition twiceDefinition)

def callsTwice : Definition :=
  ⟨"Main", [.plain (.quote .result ⟨"Twice", [.var (.input 1)]⟩)]⟩

def twiceInlined : Routine :=
  (Routine.ofDefinition callsTwice).act nextAndTwice (.expand 1)

theorem getElem?_nextAndTwice {name : String} {routine : Routine} :
    nextAndTwice[name]? = some routine ↔
      (name = "Next" ∧ routine = .ofDefinition nextDefinition) ∨
        (name = "Twice" ∧ routine = .ofDefinition twiceDefinition) := by
  have lookup : nextAndTwice[name]? = if "Twice" = name then some (.ofDefinition twiceDefinition)
      else if "Next" = name then some (.ofDefinition nextDefinition) else none := by
    simp only [nextAndTwice, Registry.add, Std.ExtTreeMap.getElem?_insert,
      Std.LawfulEqCmp.compare_eq_iff_eq, Std.ExtTreeMap.getElem?_empty]
    rfl
  rw [lookup]
  split
  · next same => simp [← same, eq_comm]
  · next different => split <;> simp_all [eq_comm]

theorem calls_nextAndTwice {caller callee : String} (calls : nextAndTwice.Calls caller callee) :
    caller = "Twice" ∧ callee = "Next" := by
  obtain ⟨routine, found, called⟩ := calls
  rcases getElem?_nextAndTwice.mp found with ⟨rfl, rfl⟩ | ⟨rfl, rfl⟩
  · have none : (Routine.ofDefinition nextDefinition).calledNames = [] := by decide +kernel
    simp [none] at called
  · have both : (Routine.ofDefinition twiceDefinition).calledNames = ["Next", "Next"] := by decide +kernel
    simp only [both, List.mem_cons, List.not_mem_nil, or_false, or_self] at called
    exact ⟨rfl, called⟩

theorem callsFit_nextAndTwice {routine : Routine} (name : Variable)
    (calls : ∀ call ∈ routine.calls, call = ⟨"Next", [.call "Next" [.var name]]⟩) :
    CallsFit nextAndTwice routine.instructions := by
  have arity : (Routine.ofDefinition nextDefinition).inputs.length = 1 := by decide +kernel
  intro instruction member call called inner nested
  obtain rfl := calls call (List.mem_filterMap.mpr ⟨instruction, member, called⟩)
  simp only [Call.calls, Call.toArgument, Argument.calls, Argument.callsAll, List.append_nil, List.mem_cons,
    List.not_mem_nil, or_false] at nested
  refine ⟨.ofDefinition nextDefinition, getElem?_nextAndTwice.mpr (.inl ⟨?_, rfl⟩), ?_⟩
  · rcases nested with rfl | rfl <;> rfl
  · rcases nested with rfl | rfl <;> exact arity

theorem grounded_nextAndTwice (names : List String) : nextAndTwice.Grounded names where
  fit := by
    intro name routine _ found
    rcases getElem?_nextAndTwice.mp found with ⟨_, rfl⟩ | ⟨_, rfl⟩
    · exact callsFit_nextAndTwice .result (by decide +kernel)
    · exact callsFit_nextAndTwice (.input 1) (by decide +kernel)
  acyclic := by
    intro name _ cycle
    obtain ⟨_, first, _⟩ := TransGen.head'_iff.mp cycle
    obtain ⟨_, _, last⟩ := TransGen.tail'_iff.mp cycle
    have differ := (calls_nextAndTwice first).1.symm.trans (calls_nextAndTwice last).2
    exact absurd differ (by decide)

theorem degreeOf_twiceInlined : degreeOf nextAndTwice.bodyDegree twiceInlined.instructions = 4 := by
  decide +kernel

theorem Routine.twiceInlined_counts_rounds :
    CallsFit nextAndTwice twiceInlined.instructions ∧ nextAndTwice.Grounded twiceInlined.calledNames ∧
    degreeOf nextAndTwice.bodyDegree twiceInlined.instructions = 4 ∧
    (∃ next, twiceInlined.expand nextAndTwice 3 = .ok next ∧ next.isBasic = false) ∧
    ∃ next, twiceInlined.expand nextAndTwice 4 = .ok next ∧ next.isBasic = true := by
  have fit : CallsFit nextAndTwice twiceInlined.instructions :=
    callsFit_nextAndTwice (.work 2) (by decide +kernel)
  have grounded := grounded_nextAndTwice twiceInlined.calledNames
  have built : ∀ {name : String} {function : Routine}, nextAndTwice[name]? = some function →
      ∃ source, function = .ofDefinition source := by
    intro name function found
    rcases getElem?_nextAndTwice.mp found with ⟨_, rfl⟩ | ⟨_, rfl⟩
    · exact ⟨_, rfl⟩
    · exact ⟨_, rfl⟩
  have distinct : ∀ (name : String) (function : Routine),
      nextAndTwice.Reached twiceInlined.calledNames name → nextAndTwice[name]? = some function →
      ∀ instruction ∈ function.instructions, ¬instruction.operation.SelfCopy := by
    intro name function _ found
    rcases getElem?_nextAndTwice.mp found with ⟨_, rfl⟩ | ⟨_, rfl⟩ <;> decide +kernel
  have copies : ∀ instruction ∈ twiceInlined.instructions, ¬instruction.operation.SelfCopy := by
    decide +kernel
  have succeeds : (twiceInlined.expand nextAndTwice 3).isOk = true ∧
      (twiceInlined.expand nextAndTwice 4).isOk = true := by
    decide +kernel
  have becomes : callsTwice.Becomes (fun _ => True) twiceInlined := .act .source trivial nextAndTwice
  have counts := Routine.degree_counts_rounds becomes built fit grounded
  refine ⟨fit, grounded, degreeOf_twiceInlined, ?_, ?_⟩
  · rcases counts 3 with ⟨next, expanded, _, _, synthetic⟩ | ⟨failed, _⟩
    · exact ⟨next, expanded, synthetic copies distinct (by rw [degreeOf_twiceInlined]; decide)⟩
    · rw [failed] at succeeds
      cases succeeds.1
  · rcases counts 4 with ⟨next, expanded, _, basic, _⟩ | ⟨failed, _⟩
    · exact ⟨next, expanded, basic degreeOf_twiceInlined.le⟩
    · rw [failed] at succeeds
      cases succeeds.2

end CounterMachine
