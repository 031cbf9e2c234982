import CounterMachine.Proofs.Permutations
import CounterMachine.Proofs.Unfolding
set_option autoImplicit false

/-!
# Confluence up to names

The names of its draft are all that is free in the block of an operation: the same operation with the same
draft stands for the same block, and a permutation of names takes a block to the block of the permuted
operation. Two unfoldings of the same code that leave only basic instructions therefore end in the same code
up to a permutation of the names that were drawn.
-/

namespace CounterMachine

open Inlining

/-! ## Frames with other names -/

namespace Inlining

/-- The use of a result, with another target. -/
def Use.permuted (permutation : Permutation) : Use → Use
  | assign => assign
  | compare target => compare (permutation.labels target)

theorem composition_permuted (permutation : Permutation) (subject : Variable) (call : Call) (use : Use) :
    (use.permuted permutation).composition (permutation.vars subject) (call.mapVars permutation.vars) =
      permutation.operation (use.composition subject call) := by
  cases use <;> rfl

theorem bind_permuted (permutation : Permutation) (slot : Variable) (argument : Argument) :
    bind (permutation.vars slot) (argument.mapVars permutation.vars) =
      permutation.operation (bind slot argument) := by
  cases argument with
  | var name =>
      rw [Argument.mapVars]
      rfl
  | call function arguments =>
      rw [Argument.mapVars]
      rfl

namespace Frame

/-- A frame with other names. -/
def permuted (permutation : Permutation) (frame : Frame) : Frame :=
  ⟨permutation.vars frame.answer, frame.slots.map permutation.vars, frame.locals.map permutation.vars,
    frame.places.map permutation.labels, frame.leave.map permutation.labels⟩

variable {permutation : Permutation} {frame : Frame} {callee : Routine}

theorem draft_permuted : (frame.permuted permutation).draft = permutation.draft frame.draft := by
  cases leave : frame.leave <;> simp [permuted, draft, Permutation.draft, leave]

theorem Fits.permuted (fits : frame.Fits callee) : (frame.permuted permutation).Fits callee := by
  refine ⟨?_, ?_, ?_, ?_⟩
  · simpa [Frame.permuted] using fits.slots
  · simpa [Frame.permuted] using fits.locals
  · simpa [Frame.permuted] using fits.places
  · simpa [Frame.permuted] using fits.leave

theorem Fits.eq_of_draft {other : Frame} (fits : frame.Fits callee) (alsoFits : other.Fits callee)
    (same : frame.draft = other.draft) : frame = other := by
  obtain ⟨answer, slots, locals, places, leave⟩ := frame
  obtain ⟨otherAnswer, otherSlots, otherLocals, otherPlaces, otherLeave⟩ := other
  rw [draft, draft, Draft.mk.injEq] at same
  obtain ⟨labels, works⟩ := same
  obtain ⟨rfl, leaves⟩ := List.append_inj labels (fits.places.trans alsoFits.places.symm)
  obtain ⟨rfl, rest⟩ := List.cons.inj works
  obtain ⟨rfl, rfl⟩ := List.append_inj rest (fits.slots.trans alsoFits.slots.symm)
  cases leave <;> cases otherLeave <;> cases leaves <;> rfl

theorem renameVar_permuted (fits : frame.Fits callee) (distinct : (knownVars callee).Nodup)
    {name : Variable} (known : name ∈ knownVars callee) :
    (frame.permuted permutation).renameVar callee name =
      permutation.vars (frame.renameVar callee name) := by
  have images : (knownVars callee).map ((frame.permuted permutation).renameVar callee) =
      (knownVars callee).map fun name => permutation.vars (frame.renameVar callee name) := by
    rw [map_renameVar fits.permuted distinct, draft_permuted, Permutation.draft,
      ← map_renameVar fits distinct, List.map_map]
    rfl
  exact List.map_inj_left.mp images name known

theorem renameLabel_permuted (fits : frame.Fits callee) {label : Label}
    (known : label.isNamed = true → label ∈ localLabels callee) :
    (frame.permuted permutation).renameLabel callee label =
      permutation.labels (frame.renameLabel callee label) := by
  cases named : label.isNamed with
  | false =>
      rw [renameLabel_of_not_named named, renameLabel_of_not_named named,
        permutation.labels_unnamed named]
  | true =>
      have images : (localLabels callee).map ((frame.permuted permutation).renameLabel callee) =
          (localLabels callee).map fun label => permutation.labels (frame.renameLabel callee label) := by
        have places : (frame.permuted permutation).places =
            frame.places.map permutation.labels := rfl
        rw [map_renameLabel fits.permuted, places, ← map_renameLabel fits, List.map_map]
        rfl
      exact List.map_inj_left.mp images label (known named)

theorem redirect_permuted (label : Label) :
    (frame.permuted permutation).redirect (permutation.labels label) =
      permutation.labels (frame.redirect label) := by
  by_cases exits : label = .exit
  · subst exits
    rw [permutation.labels_exit, redirect, redirect, if_pos rfl, if_pos rfl]
    cases leave : frame.leave <;> simp [permuted, leave]
  · have elsewhere : permutation.labels label ≠ .exit := by
      intro same
      rw [← permutation.labels_exit] at same
      exact exits (permutation.labels.injective same)
    rw [redirect, redirect, if_neg exits, if_neg elsewhere]

theorem copyOf_permuted (fits : frame.Fits callee) (covered : callee.Covered)
    {instruction : Instruction} (member : instruction ∈ callee.instructions) :
    (frame.permuted permutation).copyOf callee instruction =
      permutation.instruction (frame.copyOf callee instruction) := by
  have isLocal : ∀ {label}, .label label ∈ instruction.names → label ∈ localLabels callee := by
    intro label occurs
    exact mem_localLabels.mpr ⟨instruction, member, occurs⟩
  have here := @renameLabel_permuted permutation _ _ fits instruction.label fun named =>
    isLocal (Instruction.label_mem_names.mpr ⟨named, .inl rfl⟩)
  have sameVars : ∀ name ∈ instruction.operation.vars,
      (frame.permuted permutation).renameVar callee name =
        permutation.vars (frame.renameVar callee name) :=
    fun _ occurs => renameVar_permuted fits covered.distinct (covered.known member occurs)
  simp only [copyOf, Permutation.instruction, Instruction.mapLabels, Instruction.mapVars, here,
    Permutation.operation, Operation.mapVars_mapTarget, Operation.mapVars_mapVars,
    Operation.mapTarget_mapTarget, Operation.mapVars_congr sameVars]
  congr 1
  apply Operation.mapTarget_congr
  intro target jumps
  rw [Operation.target?_mapVars] at jumps
  rw [renameLabel_permuted fits fun named =>
    isLocal (Instruction.label_mem_names.mpr ⟨named, .inr jumps⟩)]
  exact redirect_permuted _

theorem block_permuted (fits : frame.Fits callee) (covered : callee.Covered)
    (subject : Variable) (arguments : List Argument) (use : Use) :
    (frame.permuted permutation).block (permutation.vars subject) callee
        (Argument.mapVarsAll permutation.vars arguments) (use.permuted permutation) =
      (frame.block subject callee arguments use).map permutation.instruction := by
  have clearing : (frame.permuted permutation).clear = frame.clear.map permutation.instruction := by
    simp only [clear, permuted, List.map_cons, List.map_map, Function.comp_def,
      Permutation.instruction_plain]
    rfl
  have binding : (frame.permuted permutation).bindings (Argument.mapVarsAll permutation.vars arguments) =
      (frame.bindings arguments).map permutation.instruction := by
    simp only [bindings, permuted, Argument.mapVarsAll_eq_map, List.zip_map, List.map_map,
      Function.comp_def, Permutation.instruction_plain, Prod.map, bind_permuted]
  have copying : callee.instructions.map ((frame.permuted permutation).copyOf callee) =
      (callee.instructions.map (frame.copyOf callee)).map permutation.instruction := by
    rw [List.map_map]
    apply List.map_congr_left
    intro instruction member
    exact copyOf_permuted fits covered member
  have ending : (frame.permuted permutation).tail (permutation.vars subject) (use.permuted permutation) =
      permutation.instruction (frame.tail subject use) := by
    cases use <;> cases leave : frame.leave <;>
      simp [tail, permuted, leave, Permutation.instruction, Instruction.labeled, Use.permuted,
        Use.operation, Permutation.operation, Operation.mapVars, Operation.mapTarget]
  simp only [block, clearing, binding, copying, ending, List.map_cons, List.map_append, List.map_nil,
    Permutation.instruction_plain]
  rfl

end Frame

end Inlining

namespace Operation.StandsFor

variable {registry : Registry} {operation : Operation} {draft : Draft} {body : List Instruction}

/-- An operation with other names stands for its block with other names. -/
theorem permuted (stands : operation.StandsFor registry draft body)
    (covered : ∀ {name : String} {callee : Routine}, registry[name]? = some callee → callee.Covered)
    (permutation : Permutation) :
    (permutation.operation operation).StandsFor registry (permutation.draft draft)
      (body.map permutation.instruction) := by
  cases stands with
  | composition subject call use callee frame composed found arity fits =>
      rw [composed, ← composition_permuted, ← Frame.draft_permuted,
        ← Frame.block_permuted fits (covered found)]
      refine .composition (permutation.vars subject) (call.mapVars permutation.vars)
        (use.permuted permutation) callee (frame.permuted permutation) rfl found ?_ fits.permuted
      rw [arity]
      exact (Argument.length_mapVarsAll _ _).symm
  | @zero subject first done spare =>
      simpa [Block.zero, Permutation.operation, Permutation.draft, mapVars, mapTarget] using
        @zero registry (permutation.vars subject) (permutation.labels first) (permutation.labels done)
          (permutation.vars spare)
  | @goto target spare =>
      simpa [Block.goto, Permutation.operation, Permutation.draft, mapVars, mapTarget] using
        @goto registry (permutation.labels target) (permutation.vars spare)
  | @constant subject value pump after count =>
      simpa [Block.constant, Permutation.operation, Permutation.draft, mapVars, mapTarget] using
        @constant registry (permutation.vars subject) value (permutation.labels pump)
          (permutation.labels after) (permutation.vars count)
  | @copySelf subject =>
      simpa [Permutation.operation, Permutation.draft, mapVars, mapTarget] using
        @copySelf registry (permutation.vars subject)
  | @copy subject source drain refill done store different =>
      have stillDifferent : permutation.vars subject ≠ permutation.vars source :=
        fun same => different (permutation.vars.injective same)
      simpa [Block.copy, Permutation.operation, Permutation.draft, mapVars, mapTarget] using
        @copy registry (permutation.vars subject) (permutation.vars source) (permutation.labels drain)
          (permutation.labels refill) (permutation.labels done) (permutation.vars store) stillDifferent
  | @jumpIfZero subject target skip =>
      simpa [Block.jumpIfZero, Permutation.operation, Permutation.draft, mapVars, mapTarget] using
        @jumpIfZero registry (permutation.vars subject) (permutation.labels target)
          (permutation.labels skip)
  | @jumpIfConstant subject value target different rest =>
      simpa [Block.jumpIfConstant, Permutation.operation, Permutation.draft, mapVars, mapTarget] using
        @jumpIfConstant registry (permutation.vars subject) value (permutation.labels target)
          (permutation.labels different) (permutation.vars rest)
  | @jumpIfEqual subject other target again check different left right =>
      simpa [Block.jumpIfEqual, Permutation.operation, Permutation.draft, mapVars, mapTarget] using
        @jumpIfEqual registry (permutation.vars subject) (permutation.vars other)
          (permutation.labels target) (permutation.labels again) (permutation.labels check)
          (permutation.labels different) (permutation.vars left) (permutation.vars right)

theorem of_composition {subject : Variable} {call : Call} {use : Use}
    (stands : (use.composition subject call).StandsFor registry draft body) :
    ∃ callee frame, registry[call.function]? = some callee ∧ Frame.Fits frame callee ∧
      draft = frame.draft ∧ body = frame.block subject callee call.arguments use := by
  generalize composed : use.composition subject call = operation at stands
  cases stands with
  | composition otherSubject otherCall otherUse callee frame same found arity fits =>
      rw [← composed] at same
      cases use <;> cases otherUse <;> cases same <;> exact ⟨callee, frame, found, fits, rfl, rfl⟩
  | _ => cases use <;> cases composed

theorem lengths {other : Draft} {otherBody : List Instruction}
    (first : operation.StandsFor registry draft body)
    (second : operation.StandsFor registry other otherBody) :
    draft.labels.length = other.labels.length ∧ draft.works.length = other.works.length := by
  cases first with
  | composition subject call use callee frame composed found arity fits =>
      subst composed
      obtain ⟨again, otherFrame, alsoFound, alsoFits, rfl, _⟩ := second.of_composition
      rw [found] at alsoFound
      cases alsoFound
      have leaves : frame.leave.toList.length = otherFrame.leave.toList.length := by
        rw [Option.length_toList, Option.length_toList, fits.leave, alsoFits.leave]
      simp only [Frame.draft, List.length_append, List.length_cons, fits.places, alsoFits.places,
        fits.slots, alsoFits.slots, fits.locals, alsoFits.locals, leaves, and_self]
  | copySelf =>
      cases second with
      | copySelf => exact ⟨rfl, rfl⟩
      | copy different => exact (different rfl).elim
      | composition subject call use => cases use <;> contradiction
  | copy different =>
      cases second with
      | copySelf => exact (different rfl).elim
      | copy => exact ⟨rfl, rfl⟩
      | composition subject call use => cases use <;> contradiction
  | _ =>
      cases second with
      | composition subject call use => cases use <;> contradiction
      | _ => exact ⟨rfl, rfl⟩

theorem unique {other : Draft} {otherBody : List Instruction}
    (first : operation.StandsFor registry draft body)
    (second : operation.StandsFor registry other otherBody) (same : draft = other) :
    body = otherBody := by
  cases first with
  | composition subject call use callee frame composed found arity fits =>
      subst composed
      obtain ⟨again, otherFrame, alsoFound, alsoFits, rfl, rfl⟩ := second.of_composition
      rw [found] at alsoFound
      cases alsoFound
      rw [fits.eq_of_draft alsoFits same]
  | copySelf =>
      cases second with
      | copySelf => rfl
      | copy different => exact (different rfl).elim
      | composition subject call use => cases use <;> contradiction
  | copy different =>
      cases second with
      | copySelf => exact (different rfl).elim
      | copy =>
          cases same
          rfl
      | composition subject call use => cases use <;> contradiction
  | _ =>
      cases second with
      | composition subject call use => cases use <;> contradiction
      | _ =>
          cases same
          rfl

end Operation.StandsFor

/-! ## Unfoldings -/

theorem map_labelFirst (permutation : Permutation) (label : Label) (body : List Instruction) :
    (labelFirst label body).map permutation.instruction =
      labelFirst (permutation.labels label) (body.map permutation.instruction) := by
  cases body <;> rfl

/-- The names of one draft can be taken to those of another, and the names in use stay. This takes the block
of an instruction to the block of the permuted instruction. -/
theorem exists_permutation_block {registry : Registry}
    (covered : ∀ {name : String} {callee : Routine}, registry[name]? = some callee → callee.Covered)
    {permutation : Permutation} {used : Set Name} {body otherBody : List Instruction}
    {instruction : Instruction} {draft otherDraft : Draft} (occurs : ∀ name ∈ instruction.names, name ∈ used)
    (stands : instruction.operation.StandsFor registry draft body) (avoids : draft.Avoids used)
    (otherStands :
      (permutation.instruction instruction).operation.StandsFor registry otherDraft otherBody)
    (otherAvoids : otherDraft.Avoids (permutation.name '' used)) :
    ∃ changed : Permutation, (∀ name ∈ used, changed.name name = permutation.name name) ∧
      changed.draft draft = otherDraft ∧
      labelFirst (permutation.instruction instruction).label otherBody =
        (labelFirst instruction.label body).map changed.instruction := by
  obtain ⟨labels, works⟩ := (stands.permuted covered permutation).lengths otherStands
  rw [Permutation.draft, List.length_map] at labels works
  obtain ⟨changed, agrees, taken⟩ := Permutation.extend labels works avoids otherAvoids
  have here : changed.instruction instruction = permutation.instruction instruction :=
    Permutation.instruction_congr fun name member => agrees name (occurs name member)
  have blocks : body.map changed.instruction = otherBody := by
    refine (stands.permuted covered changed).unique ?_ taken
    change (changed.instruction instruction).operation.StandsFor registry otherDraft otherBody
    rw [here]
    exact otherStands
  refine ⟨changed, agrees, taken, ?_⟩
  rw [map_labelFirst, blocks, ← here]
  rfl

theorem exists_permutation_unfolded {registry : Registry} (wellFormed : registry.WellFormed)
    {permutation : Permutation} {before rest body otherBody : List Instruction}
    {instruction : Instruction} {draft otherDraft : Draft}
    (stands : instruction.operation.StandsFor registry draft body)
    (avoids : draft.Avoids (namesIn (before ++ instruction :: rest)))
    (otherStands :
      (permutation.instruction instruction).operation.StandsFor registry otherDraft otherBody)
    (otherAvoids :
      otherDraft.Avoids (namesIn ((before ++ instruction :: rest).map permutation.instruction))) :
    ∃ changed : Permutation,
      (∀ name ∈ namesIn (before ++ instruction :: rest), changed.name name = permutation.name name) ∧
      before.map permutation.instruction = before.map changed.instruction ∧
      labelFirst (permutation.instruction instruction).label otherBody ++
        rest.map permutation.instruction =
          (labelFirst instruction.label body ++ rest).map changed.instruction := by
  have occurs : ∀ name ∈ instruction.names, name ∈ namesIn (before ++ instruction :: rest) := by
    intro name inNames
    exact ⟨instruction, by simp, inNames⟩
  obtain ⟨changed, agrees, _, blocks⟩ := exists_permutation_block
    (fun found => (wellFormed found).covered) occurs stands avoids otherStands
    (otherAvoids.mono (by
      rintro _ _ ⟨name, occurs, rfl⟩
      exact permutation.name_mem_namesIn occurs))
  have sameCode := @Permutation.map_instruction_congr permutation changed _ agrees
  rw [List.map_append, List.map_cons, List.map_append, List.map_cons] at sameCode
  obtain ⟨beforeKept, later⟩ := List.append_inj sameCode (by simp)
  refine ⟨changed, agrees, beforeKept.symm, ?_⟩
  rw [List.map_append, blocks, (List.cons.inj later).2]

/-- Unfoldings of permuted code that leave only basic instructions end in permuted code. -/
theorem Unfolding.permuted {registry : Registry} (wellFormed : registry.WellFormed)
    {before pending final : List Instruction} (unfolding : Unfolding registry before pending final)
    {permutation : Permutation} {otherBefore otherPending otherFinal : List Instruction}
    (other : Unfolding registry otherBefore otherPending otherFinal)
    (sameBefore : otherBefore = before.map permutation.instruction)
    (samePending : otherPending = pending.map permutation.instruction)
    (basic : ∀ instruction ∈ final, instruction.isBasic = true)
    (otherBasic : ∀ instruction ∈ otherFinal, instruction.isBasic = true) :
    ∃ extended : Permutation,
      (∀ name ∈ namesIn (before ++ pending), extended.name name = permutation.name name) ∧
      otherFinal = final.map extended.instruction := by
  induction unfolding generalizing permutation otherBefore otherPending with
  | finished =>
      cases samePending
      cases other with
      | finished => exact ⟨permutation, fun _ _ => rfl, sameBefore⟩
  | @keep before rest final instruction others ih =>
      have isBasic := basic instruction (others.done_subset (by simp))
      rw [List.map_cons] at samePending
      subst samePending
      cases other with
      | keep otherRest =>
          obtain ⟨extended, agrees, mapped⟩ := ih otherRest (by simp [sameBefore]) rfl basic
          rw [List.append_assoc, List.singleton_append] at agrees
          exact ⟨extended, agrees, mapped⟩
      | unfold synthetic =>
          rw [permutation.isBasic_instruction, isBasic] at synthetic
          cases synthetic
  | @unfold before rest final body instruction draft synthetic stands avoids others ih =>
      rw [List.map_cons] at samePending
      subst samePending
      cases other with
      | keep otherRest =>
          have isBasic := otherBasic (permutation.instruction instruction)
            (otherRest.done_subset (by simp))
          rw [permutation.isBasic_instruction, synthetic] at isBasic
          cases isBasic
      | @unfold _ _ _ otherBody _ otherDraft _ otherStands otherAvoids otherRest =>
          rw [sameBefore, ← List.map_cons, ← List.map_append] at otherAvoids
          obtain ⟨changed, agrees, beforeKept, laterKept⟩ :=
            exists_permutation_unfolded wellFormed stands avoids otherStands otherAvoids
          obtain ⟨extended, further, mapped⟩ :=
            ih otherRest (sameBefore.trans beforeKept) laterKept basic
          refine ⟨extended, ?_, mapped⟩
          intro name occurs
          rw [further name (by
            rw [namesIn_unfolded stands wellFormed avoids.named]
            exact .inl occurs)]
          exact agrees name occurs

end CounterMachine
