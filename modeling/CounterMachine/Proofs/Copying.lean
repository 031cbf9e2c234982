import CounterMachine.Proofs.BlockRuns
import CounterMachine.Proofs.Crossings
import CounterMachine.Proofs.Rounds
set_option autoImplicit false

/-!
# Copies in basic instructions

Two rounds turn the copy of a variable into seventeen basic instructions. Wherever they stand, they copy every
value. The work variables may have any values, except for the one that keeps the value between the two loops: it
has to be 0, and it is 0 again in the end.
-/

namespace CounterMachine

/-- What it costs to copy a value to a variable that is 0. -/
def copyCycles (value : UInt64) : Nat :=
  if value = 0 then 5 else 2 + 9 * value.toNat

namespace Block

/-- The labels and the work variables of a copy in basic instructions. -/
structure CopyNames where
  drain : Label
  refill : Label
  done : Label
  body : Label
  cleared : Label
  accumulator : Variable
  spare : Variable
  extra : Variable

/-- A copy with the blocks of its two synthetic instructions. -/
def basicCopy (subject source : Variable) (names : CopyNames) : List Instruction :=
  Block.zero subject names.body names.cleared names.spare ++
    (.plain (.jumpNotZero source names.drain) :: Block.goto names.done names.extra ++
      Block.duplicate subject source names.drain names.refill names.done names.accumulator)

namespace CopyNames

/-- The names in the order in which they are drawn. -/
def draft (names : CopyNames) : Draft where
  labels := [names.drain, names.refill, names.done, names.body, names.cleared]
  works := [names.accumulator, names.spare, names.extra]

theorem isNamed_labels {names : CopyNames} (named : ∀ label ∈ names.draft.labels, label.isNamed = true) :
    names.drain.isNamed = true ∧ names.refill.isNamed = true ∧ names.done.isNamed = true ∧
      names.body.isNamed = true ∧ names.cleared.isNamed = true := by
  simpa [draft] using named

end CopyNames

end Block

/-! ## Running the block -/

/-- The part after the subject has become 0. -/
theorem Holds.copyToZero {code : List Instruction} {start : Nat} {store : Store}
    {subject source accumulator extra : Variable} {drain refill done : Label}
    (holds : Holds code start (.plain (.jumpNotZero source drain) :: Block.goto done extra ++
      Block.duplicate subject source drain refill done accumulator))
    (drainNamed : drain.isNamed = true) (refillNamed : refill.isNamed = true) (doneNamed : done.isNamed = true)
    (different : subject ≠ source) (apartSubject : accumulator ≠ subject) (apartSource : accumulator ≠ source)
    (apartExtra : accumulator ≠ extra) (blank : store subject = 0) (idle : store accumulator = 0) :
    ∃ last, Charges code (copyCycles (store source)) start store (start + 11) last ∧
      Agree [accumulator, extra] (Function.update store subject (store source)) last ∧ last accumulator = 0 := by
  have loops := holds.append.2
  have leads : Leads code start (.goto drain) (some (start + 3)) := loops.leads 0 drainNamed rfl
  by_cases zero : store source = 0
  · have nonzero : Function.update store extra (increased (store extra)) extra ≠ 0 := by
      rw [Function.update_self]
      exact increased_ne_zero _
    refine ⟨Function.update store extra (increased (store extra)), ?_, ?_, ?_⟩
    · rw [copyCycles, if_pos zero]
      refine holds.charges 0 rfl rfl rfl (.jumpIf leads) ?_
      rw [if_neg (not_not_intro zero)]
      refine holds.charges 1 rfl rfl rfl .next ?_
      refine holds.charges 2 rfl rfl rfl (.jumpIf (loops.leads 7 doneNamed rfl)) ?_
      rw [if_pos nonzero]
      exact loops.charges 7 rfl rfl rfl .next .none
    · rw [zero, ← blank, Function.update_eq_self]
      exact .update store (by simp) _
    · exact (Function.update_of_ne apartExtra _ _).trans idle
  · obtain ⟨last, copying, agree, spent⟩ := @Holds.duplicate _ _ store _ _ _ _ _ _ loops drainNamed refillNamed
      different apartSubject apartSource blank idle zero
    refine ⟨last, ?_, agree.mono (by simp), spent⟩
    rw [copyCycles, if_neg zero, Nat.add_comm]
    refine holds.charges 0 rfl rfl rfl (.jumpIf leads) ?_
    rw [if_pos zero]
    exact copying

theorem Holds.basicCopy {code : List Instruction} {start : Nat} {store : Store} {subject source : Variable}
    {names : Block.CopyNames} (holds : Holds code start (Block.basicCopy subject source names))
    {used : Set Name} (avoids : names.draft.Avoids used) (subjectUsed : .var subject ∈ used)
    (sourceUsed : .var source ∈ used) (different : subject ≠ source) (idle : store names.accumulator = 0) :
    ∃ last, Charges code (zeroCycles (store subject) + copyCycles (store source)) start store (start + 17) last ∧
      Agree names.draft.works (Function.update store subject (store source)) last ∧
      last names.accumulator = 0 := by
  obtain ⟨drainNamed, refillNamed, doneNamed, bodyNamed, clearedNamed⟩ :=
    Block.CopyNames.isNamed_labels avoids.named
  obtain ⟨⟨apartSpare, apartExtra⟩, _⟩ :
      (names.accumulator ≠ names.spare ∧ names.accumulator ≠ names.extra) ∧ names.spare ≠ names.extra := by
    simpa [Block.CopyNames.draft] using avoids.works
  have apart {other : Variable} (known : .var other ∈ used) :
      names.accumulator ≠ other ∧ names.spare ≠ other := by
    have fresh : ∀ name ∈ names.draft.works, name ≠ other := by
      rintro name drawn rfl
      exact avoids.unused _ (Draft.var_mem_names.mpr drawn) known
    exact ⟨fresh _ (by simp [Block.CopyNames.draft]), fresh _ (by simp [Block.CopyNames.draft])⟩
  obtain ⟨accumulatorSubject, spareSubject⟩ := apart subjectUsed
  obtain ⟨accumulatorSource, spareSource⟩ := apart sourceUsed
  obtain ⟨zeroing, rest⟩ := holds.append
  obtain ⟨cleared, clearing, agree⟩ := @Holds.zero _ _ store _ _ _ _ zeroing bodyNamed clearedNamed spareSubject
  have kept : cleared source = store source := by
    rw [← agree source (by simpa using spareSource.symm), Function.update_of_ne different.symm]
  obtain ⟨last, copying, agreeing, spent⟩ := @Holds.copyToZero _ _ cleared _ _ _ _ _ _ _ rest drainNamed
    refillNamed doneNamed different accumulatorSubject accumulatorSource apartExtra
    (by rw [← agree subject (by simpa using spareSubject.symm), Function.update_self])
    (by rw [← agree _ (by simpa using apartSpare), Function.update_of_ne accumulatorSubject, idle])
  rw [kept] at copying agreeing
  have copied := agree.update_both subject (store source)
  rw [Function.update_idem] at copied
  exact ⟨last, clearing.trans copying, (copied.mono (by simp [Block.CopyNames.draft])).trans
    (agreeing.mono (by simp [Block.CopyNames.draft])), spent⟩

/-! ## Deriving the block -/

theorem Derivation.code_leaves (code : List Instruction) : (code.map leaf).flatMap Derivation.code = code := by
  simp [List.flatMap_map]

namespace Instruction

variable {registry : Registry} {rounds : Nat} {supply next : Supply}

theorem mapM_derive_cons {first : Instruction} {rest : List Instruction} {trees : List Derivation}
    (derived : (first :: rest).mapM (derive registry rounds) supply = .ok (trees, next)) :
    ∃ tree middle others, first.derive registry rounds supply = .ok (tree, middle) ∧
      rest.mapM (derive registry rounds) middle = .ok (others, next) ∧ trees = tree :: others := by
  rw [List.mapM_cons] at derived
  obtain ⟨tree, middle, head, derived⟩ := Fresh.bind_ok derived
  obtain ⟨others, last, tail, derived⟩ := Fresh.bind_ok derived
  obtain ⟨rfl, rfl⟩ := Fresh.pure_ok derived
  exact ⟨tree, middle, others, head, tail, rfl⟩

/-- Instructions that are not expanded stay as they are. -/
theorem mapM_derive_leaves {code : List Instruction}
    (leaves : ∀ instruction ∈ code, instruction.derive registry rounds = pure (.leaf instruction)) :
    code.mapM (derive registry rounds) = pure (code.map .leaf) := by
  induction code with
  | nil => exact List.mapM_nil
  | cons first rest ih =>
      rw [List.mapM_cons, leaves first List.mem_cons_self, pure_bind,
        ih fun instruction member => leaves instruction (List.mem_cons_of_mem _ member), pure_bind, List.map_cons]

/-- One round of a synthetic instruction yields its block. -/
theorem derive_one {instruction : Instruction} (synthetic : instruction.isBasic = false) {tree : Derivation}
    (derived : instruction.derive registry 1 supply = .ok (tree, next)) :
    ∃ draft block, instruction.operation.StandsFor registry draft block ∧ supply.Draws draft next ∧
      tree.code = labelFirst instruction.label block := by
  obtain ⟨draft, block, middle, children, stands, draws, rfl, ran⟩ := derive_succ synthetic derived
  rw [mapM_derive_leaves fun _ _ => rfl] at ran
  obtain ⟨rfl, rfl⟩ := Fresh.pure_ok ran
  exact ⟨draft, block, stands, draws, by rw [Derivation.code_node, Derivation.code_leaves]⟩

/-- Two rounds of a copy yield its basic block, with eight names that are drawn for it. -/
theorem derive_copy {label : Label} {subject source : Variable} (different : subject ≠ source) {tree : Derivation}
    (derived : derive registry 2 ⟨label, .assignment subject source⟩ supply = .ok (tree, next)) :
    ∃ names : Block.CopyNames, supply.Draws names.draft next ∧
      tree.code = labelFirst label (Block.basicCopy subject source names) := by
  obtain ⟨draft, block, middle, children, stands, draws, rfl, ran⟩ := derive_succ rfl derived
  cases stands with
  | copySelf => exact (different rfl).elim
  | composition _ _ use _ _ composed => cases use <;> cases composed
  | @copy _ _ drain refill done accumulator _ =>
      rw [Block.copy, labelFirst] at ran
      obtain ⟨zeroTree, _, _, zeroDerived, afterZero, rfl⟩ := mapM_derive_cons ran
      obtain ⟨jumpTree, _, _, jumpDerived, afterJump, rfl⟩ := mapM_derive_cons afterZero
      obtain ⟨gotoTree, _, _, gotoDerived, afterGoto, rfl⟩ := mapM_derive_cons afterJump
      obtain ⟨_, _, zeroStands, zeroDraws, zeroCode⟩ := derive_one rfl zeroDerived
      obtain ⟨_, _, gotoStands, gotoDraws, gotoCode⟩ := derive_one rfl gotoDerived
      rw [derive_basic rfl] at jumpDerived
      obtain ⟨rfl, rfl⟩ := Fresh.pure_ok jumpDerived
      have basic : (Block.duplicate subject source drain refill done accumulator).all isBasic = true := rfl
      change (List.mapM (derive registry 1) (Block.duplicate subject source drain refill done accumulator) :
        Fresh (List Derivation)) _ = _ at afterGoto
      rw [mapM_derive_leaves fun instruction member =>
        derive_basic (List.all_eq_true.mp basic instruction member) 1] at afterGoto
      obtain ⟨rfl, rfl⟩ := Fresh.pure_ok afterGoto
      cases zeroStands with
      | composition _ _ use _ _ composed => cases use <;> cases composed
      | @zero _ body cleared spare =>
          cases gotoStands with
          | composition _ _ use _ _ composed => cases use <;> cases composed
          | @goto _ extra =>
              refine ⟨⟨drain, refill, done, body, cleared, accumulator, spare, extra⟩,
                draws.trans (zeroDraws.trans gotoDraws), ?_⟩
              rw [Derivation.code_node, List.flatMap_cons, List.flatMap_cons, List.flatMap_cons,
                Derivation.code_leaf, Derivation.code_leaves, zeroCode, gotoCode]
              rfl

end Instruction

/-! ## Copies in a routine -/

theorem Block.attached_basicCopy {label : Label} {subject source : Variable} {names : CopyNames}
    (named : ∀ label ∈ names.draft.labels, label.isNamed = true) :
    attached (labelFirst label (Block.basicCopy subject source names)) =
      [label].filter Label.isNamed ++ [names.body, names.cleared, names.drain, names.refill, names.done] := by
  obtain ⟨drain, refill, done, body, cleared⟩ := CopyNames.isNamed_labels named
  have empty : Label.empty.isNamed = false := rfl
  change attached (_ :: _) = _
  rw [attached_cons]
  simp [attached, Block.goto, Block.duplicate, Instruction.plain, Instruction.labeled, *]

/-- The block that the copy of a variable is expanded into in two rounds is exact for all values, wherever it
stands, if none of its own labels is attached before it. From its first instruction a run comes through
instructions of the block to the place after it, and has copied the source. Its costs are those of clearing the
old value and of copying the new one. All work variables of the block but one may have any values before. -/
theorem Routine.copy_block_exact {registry : Registry} {label : Label} {subject source : Variable}
    (different : subject ≠ source) {supply next : Supply}
    (known : ∀ name ∈ Instruction.names ⟨label, .assignment subject source⟩, name ∈ supply.taken)
    {tree : Derivation}
    (derived : Instruction.derive registry 2 ⟨label, .assignment subject source⟩ supply = .ok (tree, next))
    {routine : Routine} (present : ∀ id ∈ routine.sequence, ∃ node, routine.forest.get? id = some node)
    (labels : routine.state.labels = routine.labelPositions) {before after : List Instruction}
    (code : routine.instructions = before ++ tree.code ++ after)
    (apart : ∀ own ∈ attached tree.code.tail, own ∉ attached before)
    (position : routine.state.position = before.length) (going : routine.state.halted = false) :
    ∃ names : Block.CopyNames, tree.code = labelFirst label (Block.basicCopy subject source names) ∧
      names.draft.Avoids supply.taken ∧
      (routine.state.value names.accumulator = 0 → ∀ (functions : Registry) (fuel : Nat), ∃ reports ended,
        Crosses functions fuel before.length (before.length + tree.code.length) reports routine ended ∧
        spentCycles reports =
          zeroCycles (routine.state.value subject) + copyCycles (routine.state.value source) ∧
        ended.state.position = before.length + tree.code.length ∧
        ended.state.value subject = routine.state.value source ∧
        ended.state.value source = routine.state.value source ∧
        ended.state.value names.accumulator = 0 ∧
        ∀ name, name ≠ subject → name ∉ names.draft.works →
          ended.state.value name = routine.state.value name) := by
  obtain ⟨names, ⟨avoids, _⟩, same⟩ := Instruction.derive_copy different derived
  have subjectKnown := known (.var subject) (Instruction.var_mem_names.mpr List.mem_cons_self)
  have sourceKnown := known (.var source)
    (Instruction.var_mem_names.mpr (List.mem_cons_of_mem _ List.mem_cons_self))
  refine ⟨names, same, avoids, fun idle functions fuel => ?_⟩
  have distinct : (attached (labelFirst label (Block.basicCopy subject source names))).Nodup := by
    have permuted : [names.body, names.cleared, names.drain, names.refill, names.done].Perm names.draft.labels :=
      @List.perm_append_comm _ [names.body, names.cleared] _
    rw [Block.attached_basicCopy avoids.named, (permuted.append_left _).nodup_iff]
    refine List.Nodup.append ((List.nodup_singleton label).filter _) avoids.labels ?_
    intro own here drawn
    obtain ⟨rfl, named⟩ : own = label ∧ own.isNamed = true := by simpa using here
    exact avoids.unused _ (Draft.label_mem_names.mpr drawn)
      (known _ (Instruction.label_mem_names.mpr ⟨named, .inl rfl⟩))
  rw [same] at code apart ⊢
  have carries : routine.Carries before.length (Block.basicCopy subject source names) :=
    carries_of_part present labels code distinct apart
  have holds : Holds (Block.basicCopy subject source names) 0 (Block.basicCopy subject source names) := .self _
  obtain ⟨last, charges, agree, spent⟩ := holds.basicCopy avoids subjectKnown sourceKnown different idle
  obtain ⟨reports, ended, crosses, total, place, values⟩ :=
    carries.crosses functions fuel charges going position rfl
  have value (name : Variable) : ended.state.value name = last name := congrFun values name
  have kept {name : Variable} (other : name ≠ subject) (visible : name ∉ names.draft.works) :
      ended.state.value name = routine.state.value name := by
    rw [value, ← agree name visible, Function.update_of_ne other]
  have fresh {name : Variable} (known : .var name ∈ supply.taken) : name ∉ names.draft.works :=
    fun drawn => avoids.unused _ (Draft.var_mem_names.mpr drawn) known
  refine ⟨reports, ended, crosses, total, place, ?_, kept different.symm (fresh sourceKnown), ?_,
    fun name => kept⟩
  · rw [value, ← agree subject (fresh subjectKnown), Function.update_self]
  · rw [value, spent]

/-- The copy of an input, at a label. -/
def copyingInput : Instruction :=
  ⟨.named 3, .assignment .result (.input 1)⟩

/-- A supply that has to skip two labels and a work variable. -/
def copyingSupply : Supply where
  names := {}
  labels := .ofList [Label.named 2, Label.named 3]
  vars := .ofList [Variable.result, Variable.input 1, Variable.work 2]

def copyingTree : Derivation :=
  match copyingInput.derive ∅ 2 copyingSupply with
  | .ok (tree, _) => tree
  | .error _ => .leaf copyingInput

def copyingDefinition : Definition :=
  ⟨"Main", [.plain (.increase .result)] ++ copyingTree.code ++ [.labeled (.named 2) (.neutral .result)]⟩

/-- A routine that has come to the block of the copy. -/
def copyingRoutine : Routine :=
  let routine := Routine.ofDefinition copyingDefinition
  { routine with
    state := { routine.state with
      values := (Std.ExtTreeMap.insert ∅ Variable.result 3).insert (.input 1) 2
      position := 1 } }

theorem derive_copyingInput : ∃ next, copyingInput.derive ∅ 2 copyingSupply = .ok (copyingTree, next) := by
  have made : (copyingInput.derive ∅ 2 copyingSupply).isOk = true := by decide +kernel
  rw [copyingTree]
  cases derived : copyingInput.derive ∅ 2 copyingSupply with
  | error failure =>
      rw [derived] at made
      cases made
  | ok pair => exact ⟨pair.2, rfl⟩

theorem copyingInput_known : ∀ name ∈ copyingInput.names, name ∈ copyingSupply.taken := by
  have names : copyingInput.names = [.label (.named 3), .var .result, .var (.input 1)] := by decide
  simp only [names, List.forall_mem_cons, Supply.label_mem_taken, Supply.var_mem_taken,
    ← Std.ExtTreeSet.contains_iff_mem]
  exact ⟨by decide +kernel, by decide +kernel, by decide +kernel, List.forall_mem_nil _⟩

/-- Clearing 3 costs 11 cycles and copying 2 costs 20. -/
theorem Routine.copyingRoutine_copy_exact : ∃ reports ended,
    Crosses ∅ 0 1 18 reports copyingRoutine ended ∧ spentCycles reports = 31 ∧ ended.state.position = 18 ∧
      ended.state.value .result = 2 ∧ ended.state.value (.input 1) = 2 := by
  obtain ⟨next, derived⟩ := derive_copyingInput
  obtain ⟨names, same, avoids, exactly⟩ := @copy_block_exact ∅ (.named 3) .result (.input 1) (by decide)
    copyingSupply next copyingInput_known copyingTree derived copyingRoutine
    (Frontier.ofDefinition ∅ copyingDefinition).present rfl
    [.plain (.increase .result)] [.labeled (.named 2) (.neutral .result)]
    (instructions_ofDefinition copyingDefinition) (by simp [attached, Instruction.plain, Label.isNamed]) rfl rfl
  have fresh : ∀ name ∈ copyingInput.operation.vars, names.accumulator ≠ name := by
    rintro name own rfl
    exact avoids.unused (.var names.accumulator) (by simp [Block.CopyNames.draft])
      (copyingInput_known _ (Instruction.var_mem_names.mpr own))
  have idle : copyingRoutine.state.value names.accumulator = 0 := by
    change Values.value ((Std.ExtTreeMap.insert ∅ Variable.result 3).insert (.input 1) 2) names.accumulator = 0
    rw [Values.value_insert, Values.value_insert, Function.update_of_ne (fresh _ (by decide)),
      Function.update_of_ne (fresh _ (by decide))]
    rfl
  have length : copyingTree.code.length = 17 := congrArg List.length same
  rw [length] at exactly
  obtain ⟨reports, ended, crosses, spent, place, subject, source, _⟩ := exactly idle ∅ 0
  exact ⟨reports, ended, crosses, spent.trans (by decide +kernel), place, subject, source⟩

end CounterMachine
