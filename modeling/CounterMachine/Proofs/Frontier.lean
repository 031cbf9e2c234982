import CounterMachine.Proofs.Drafts
import CounterMachine.Proofs.Spreading
import CounterMachine.Routine.Expansion
import CounterMachine.Routine.Run
set_option autoImplicit false

/-!
# The frontier of a routine

The sequence of a routine consists of the leaves of branches, one branch for each source instruction, in the
order of the source. The labels and variables of the routine are those of its definition or of its current
instructions. Expansion extends the branches at their leaves.
-/

namespace CounterMachine

/-! ## Nodes of a sequence -/

theorem Branch.filterMap_leaves {forest : Forest} {branches : List Branch}
    (held : ∀ branch ∈ branches, branch.In forest) :
    ((branches.flatMap Branch.leaves).filterMap forest.get?).map Node.instruction =
      (branches.map Branch.derivation).flatMap Derivation.code := by
  rw [List.filterMap_flatMap, List.map_flatMap, List.flatMap_map]
  exact List.flatMap_congr fun branch member => (held branch member).code_derivation

theorem map_some_filterMap {forest : Forest} {sequence : List Nat}
    (found : ∀ id ∈ sequence, ∃ node, forest.get? id = some node) :
    (sequence.filterMap forest.get?).map some = sequence.map forest.get? := by
  induction sequence with
  | nil => rfl
  | cons id rest ih =>
      obtain ⟨node, present⟩ := found id (by simp)
      rw [List.filterMap_cons_some present, List.map_cons, List.map_cons, present,
        ih fun other member => found other (by simp [member])]

/-! ## The invariant -/

/-- The branches of a routine, and the names that were drawn for them. -/
structure Frontier (registry : Registry) (definition : Definition) (routine : Routine)
    (branches : List Branch) (draft : Draft) : Prop where
  ordered : routine.forest.Ordered
  roots : ∀ {position instruction}, definition.body[position]? = some instruction →
    routine.forest.get? position = some (.root position instruction)
  covered : branches.map Branch.id = List.range definition.body.length
  held : ∀ branch ∈ branches, branch.In routine.forest
  distinct : (branches.flatMap Branch.ids).Nodup
  sequence : routine.sequence = branches.flatMap Branch.leaves
  drawn : Drawn registry (branches.map Branch.derivation) draft
  avoids : registry.WellFormed → draft.Avoids (namesIn definition.body)
  inputs : routine.inputs = definition.inputs
  sourceVars : routine.sourceVars = definition.vars
  labels : routine.state.labels = routine.labelPositions
  vars : routine.vars = routine.varsInUse ∨ routine.vars = routine.sourceVars

namespace Frontier

variable {registry : Registry} {definition : Definition} {routine : Routine}
  {branches : List Branch} {draft : Draft}

theorem instructions (frontier : Frontier registry definition routine branches draft) :
    routine.instructions = (branches.map Branch.derivation).flatMap Derivation.code := by
  rw [Routine.instructions, Routine.nodes, frontier.sequence]
  exact Branch.filterMap_leaves frontier.held

theorem map_instruction (frontier : Frontier registry definition routine branches draft) :
    (branches.map Branch.derivation).map Derivation.instruction = definition.body := by
  apply List.ext_getElem?
  intro position
  simp only [List.getElem?_map, Option.map_map]
  have place := congrArg (·[position]?) frontier.covered
  simp only [List.getElem?_map] at place
  cases found : branches[position]? with
  | none =>
      rw [found] at place
      have outside := List.getElem?_eq_none_iff.mp place.symm
      rw [List.length_range] at outside
      exact (List.getElem?_eq_none_iff.mpr outside).symm
  | some branch =>
      rw [found, Option.map_some, eq_comm, List.getElem?_eq_some_iff] at place
      obtain ⟨inside, same⟩ := place
      rw [List.length_range] at inside
      rw [List.getElem_range] at same
      have root := frontier.roots (List.getElem?_eq_getElem inside)
      obtain ⟨node, present, instruction⟩ :=
        (frontier.held branch (List.mem_of_getElem? found)).get?_id
      rw [← same, root] at present
      cases present
      rw [Option.map_some, Function.comp_apply, Branch.instruction_derivation, ← instruction,
        List.getElem?_eq_getElem inside]
      rfl

/-- Whatever names were drawn, the sequence is spread over the branches. -/
theorem spread (frontier : Frontier registry definition routine branches draft) :
    Spread routine.forest branches routine.sequence where
  ordered := frontier.ordered
  roots := by
    intro branch member
    have inRange := List.mem_map_of_mem (f := Branch.id) member
    rw [frontier.covered, List.mem_range] at inRange
    exact ⟨_, frontier.roots (List.getElem?_eq_getElem inRange), rfl⟩
  held := frontier.held
  distinct := frontier.distinct
  full := fun branch member =>
    Branch.full_of_unfolded (frontier.drawn.unfolded _ (List.mem_map_of_mem member))
  leaves := frontier.sequence

theorem present (frontier : Frontier registry definition routine branches draft) :
    ∀ id ∈ routine.sequence, ∃ node, routine.forest.get? id = some node :=
  frontier.spread.present

theorem sequence_nodup (frontier : Frontier registry definition routine branches draft) :
    routine.sequence.Nodup :=
  frontier.spread.nodup

/-- In a well-formed registry the names in use are those of the source and those that were drawn. -/
theorem names (frontier : Frontier registry definition routine branches draft)
    (wellFormed : registry.WellFormed) :
    namesIn routine.instructions = namesIn definition.body ∪ { name | name ∈ draft.names } := by
  rw [frontier.instructions, frontier.drawn.names wellFormed (frontier.avoids wellFormed).named,
    frontier.map_instruction]

end Frontier

theorem Routine.taken_supply (routine : Routine) :
    namesIn routine.instructions ⊆ routine.supply.taken := by
  intro name found
  obtain ⟨instruction, member, occurs⟩ := found
  cases name with
  | label label =>
      simp only [Supply.label_mem_taken, supply, labelsInUse, Std.ExtTreeSet.mem_ofList,
        List.contains_iff_mem]
      refine List.mem_flatMap_of_mem member ?_
      simpa [Instruction.names] using occurs
  | var name =>
      simp only [Supply.var_mem_taken, supply, varsInUse, Std.ExtTreeSet.mem_insertMany_list,
        List.contains_iff_mem]
      exact .inr (List.mem_flatMap_of_mem member (Instruction.var_mem_names.mp occurs))

/-! ## Routines that are not changed -/

/-- A routine of the same code: its state may differ, but not in the labels, and its variables may have been
restored. -/
structure Routine.SameCode (routine next : Routine) : Prop where
  name : next.name = routine.name
  forest : next.forest = routine.forest
  sequence : next.sequence = routine.sequence
  inputs : next.inputs = routine.inputs
  sourceVars : next.sourceVars = routine.sourceVars
  labels : next.state.labels = routine.state.labels
  vars : next.vars = routine.vars ∨ next.vars = routine.sourceVars

namespace Routine.SameCode

theorem refl (routine : Routine) : routine.SameCode routine :=
  ⟨rfl, rfl, rfl, rfl, rfl, rfl, .inl rfl⟩

theorem trans {routine middle next : Routine} (first : routine.SameCode middle)
    (second : middle.SameCode next) : routine.SameCode next where
  name := second.name.trans first.name
  forest := second.forest.trans first.forest
  sequence := second.sequence.trans first.sequence
  inputs := second.inputs.trans first.inputs
  sourceVars := second.sourceVars.trans first.sourceVars
  labels := second.labels.trans first.labels
  vars := by
    rcases second.vars with same | restored
    · rw [same]
      exact first.vars
    · exact .inr (restored.trans first.sourceVars)

theorem instructions {routine next : Routine} (same : routine.SameCode next) :
    next.instructions = routine.instructions := by
  rw [Routine.instructions, nodes, same.sequence, same.forest]
  rfl

theorem varsInUse {routine next : Routine} (same : routine.SameCode next) :
    next.varsInUse = routine.varsInUse := by
  rw [Routine.varsInUse, same.sourceVars, same.instructions]
  rfl

theorem labelPositions {routine next : Routine} (same : routine.SameCode next) :
    next.labelPositions = routine.labelPositions := by
  rw [Routine.labelPositions, same.instructions]
  rfl

theorem start (routine : Routine) (arguments : List UInt64) :
    routine.SameCode (routine.start arguments) :=
  ⟨rfl, rfl, rfl, rfl, rfl, rfl, .inl rfl⟩

theorem reset (routine : Routine) : routine.SameCode routine.reset :=
  ⟨rfl, rfl, rfl, rfl, rfl, rfl, .inl rfl⟩

theorem restoreVars (routine : Routine) : routine.SameCode routine.restoreVars :=
  ⟨rfl, rfl, rfl, rfl, rfl, rfl, .inr rfl⟩

theorem stepWith (registry : Registry) (run : Argument.Runner) (routine : Routine) :
    routine.SameCode (routine.stepWith registry run).1 := by
  unfold Routine.stepWith
  split
  · exact .refl routine
  · dsimp only
    split
    · exact ⟨rfl, rfl, rfl, rfl, rfl, rfl, .inl rfl⟩
    · split
      · exact .refl routine
      · exact .refl routine
      · split
        · exact .refl routine
        · refine ⟨rfl, rfl, rfl, rfl, rfl, ?_, .inl rfl⟩
          split <;> rfl

theorem finish (registry : Registry) (fuel : Nat) (routine : Routine) :
    routine.SameCode (routine.finish registry fuel).1 := by
  induction fuel generalizing routine with
  | zero => exact .refl routine
  | succ fuel ih =>
      have step := stepWith registry (replyOf (Routine.finish registry fuel)) routine
      unfold Routine.finish
      cases stepped : Routine.stepWith registry (replyOf (Routine.finish registry fuel)) routine with
      | mk next outcome =>
          rw [stepped] at step
          rcases outcome with (⟨_, _⟩ | _) | _ | _
          · exact step.trans (ih next)
          · exact step
          · exact step
          · exact step

theorem run (registry : Registry) (fuel : Nat) (routine : Routine) (arguments : List UInt64) :
    routine.SameCode (routine.run registry fuel arguments).1 := by
  have finished := (start routine arguments).trans (finish registry fuel _)
  unfold Routine.run
  cases ran : Routine.finish registry fuel (routine.start arguments) with
  | mk ended outcome =>
      rw [ran] at finished
      cases outcome <;> exact finished

end Routine.SameCode

namespace Frontier

variable {registry : Registry} {definition : Definition} {routine : Routine}
  {branches : List Branch} {draft : Draft}

theorem sameCode (frontier : Frontier registry definition routine branches draft) {next : Routine}
    (same : routine.SameCode next) : Frontier registry definition next branches draft where
  ordered := same.forest ▸ frontier.ordered
  roots := same.forest ▸ frontier.roots
  covered := frontier.covered
  held := same.forest ▸ frontier.held
  distinct := frontier.distinct
  sequence := same.sequence.trans frontier.sequence
  drawn := frontier.drawn
  avoids := frontier.avoids
  inputs := same.inputs.trans frontier.inputs
  sourceVars := same.sourceVars.trans frontier.sourceVars
  labels := by rw [same.labels, same.labelPositions, frontier.labels]
  vars := by
    rw [same.varsInUse, same.sourceVars]
    rcases same.vars with kept | restored
    · rw [kept]
      exact frontier.vars
    · exact .inr restored

end Frontier

/-! ## Definitions in working order -/

/-- Nothing of a definition is expanded yet. -/
def Definition.branches (definition : Definition) : List Branch :=
  definition.body.zipIdx.map fun (instruction, position) => .leaf position instruction

theorem Frontier.ofDefinition (registry : Registry) (definition : Definition) :
    Frontier registry definition (.ofDefinition definition) definition.branches {} where
  ordered := Forest.ordered_ofRoots definition.body
  roots := Forest.get?_ofRoots
  covered := by
    rw [Definition.branches, List.map_map, List.range_eq_range', ← List.zipIdx_map_snd]
    rfl
  held := by
    intro branch member
    obtain ⟨⟨instruction, position⟩, inBody, rfl⟩ := List.mem_map.mp member
    exact .leaf (Forest.get?_ofRoots (List.mem_zipIdx_iff_getElem?.mp inBody))
  distinct := by
    have ids : definition.branches.flatMap Branch.ids = List.range definition.body.length := by
      rw [Definition.branches, List.flatMap_map, List.range_eq_range', ← List.zipIdx_map_snd,
        ← List.flatMap_pure_eq_map]
      exact List.flatMap_congr fun pair _ => Branch.ids_leaf _ _
    rw [ids]
    exact List.nodup_range
  sequence := by
    rw [Definition.branches, List.flatMap_map]
    change List.range definition.body.length = _
    rw [List.range_eq_range', ← List.zipIdx_map_snd, ← List.flatMap_pure_eq_map]
    exact List.flatMap_congr fun pair _ => (Branch.leaves_leaf _ _).symm
  drawn := by
    have trees : definition.branches.map Branch.derivation = definition.body.map .leaf := by
      rw [← List.zipIdx_map_fst 0 definition.body, List.map_map, Definition.branches, List.map_map]
      apply List.map_congr_left
      intro pair _
      exact Branch.derivation_leaf _ _
    rw [trees]
    exact .leaves registry definition.body
  avoids := fun _ => .nothing _
  inputs := rfl
  sourceVars := rfl
  labels := rfl
  vars := .inl rfl

theorem Routine.instructions_ofDefinition (definition : Definition) :
    (Routine.ofDefinition definition).instructions = definition.body := by
  have source := Frontier.ofDefinition ∅ definition
  rw [source.instructions, ← source.map_instruction]
  apply Derivation.flatMap_code_leaves
  intro tree inTrees
  obtain ⟨branch, member, rfl⟩ := List.mem_map.mp inTrees
  obtain ⟨pair, _, rfl⟩ := List.mem_map.mp member
  simp [Derivation.instruction]

/-! ## Expansion -/

/-- The trees of a successful expansion, and the forest that they are grafted to. -/
theorem Routine.expandSelected_ok {registry : Registry} {routine next : Routine} {rounds : Nat}
    {selected : Nat → Bool} (expanded : routine.expandSelected registry rounds selected = .ok next) :
    ∃ trees supply growth,
      routine.derivations registry rounds selected routine.supply = .ok (trees, supply) ∧
      (∃ new, Drawn registry trees new ∧ routine.supply.Draws new supply) ∧
      trees.map Derivation.instruction = routine.instructions ∧
      growth = ((routine.sequence.zip routine.nodes).zip trees).foldl
        (fun growth place => Growth.replace growth place.1.1 place.1.2 place.2)
        { forest := routine.forest } ∧
      next = Routine.refresh { routine with
        forest := growth.forest
        sequence := growth.sequence.toList
        state := { routine.state with names := supply.names } } := by
  cases derived : (routine.derivations registry rounds selected).run routine.supply with
  | error failure =>
      rw [expandSelected, derived] at expanded
      cases expanded
  | ok pair =>
      obtain ⟨trees, supply⟩ := pair
      rw [expandSelected, derived] at expanded
      have one : ∀ {place : Instruction × Nat} {supply : Supply} {tree : Derivation} {next : Supply},
          (if selected place.2 then place.1.derive registry rounds else return .leaf place.1 :
            Fresh Derivation) supply = .ok (tree, next) →
          tree.instruction = place.1 ∧
            ∃ draft, Drawn registry [tree] draft ∧ supply.Draws draft next := by
        intro place supply tree next derived
        cases chosen : selected place.2 with
        | true =>
            rw [chosen, if_pos rfl] at derived
            exact Instruction.derive_ok derived
        | false =>
            rw [chosen, if_neg Bool.false_ne_true] at derived
            obtain ⟨rfl, rfl⟩ := Fresh.pure_ok derived
            exact ⟨rfl, {}, .leaf .nil, .nothing supply⟩
      obtain ⟨instructions, new, drawn, draws⟩ := Drawn.mapM Prod.fst one derived
      rw [List.zipIdx_map_fst] at instructions
      cases expanded
      exact ⟨trees, supply, _, derived, ⟨new, drawn, draws⟩, instructions, rfl, rfl⟩

theorem eq_of_mem_zip {α β γ : Type} {first : α → γ} {second : β → γ} {left : List α}
    {right : List β} (same : left.map first = right.map second) {pair : α × β}
    (member : pair ∈ left.zip right) : first pair.1 = second pair.2 := by
  obtain ⟨place, found⟩ := List.mem_iff_getElem?.mp member
  obtain ⟨atLeft, atRight⟩ := List.getElem?_zip_eq_some.mp found
  have here := congrArg (·[place]?) same
  simp only [List.getElem?_map, atLeft, atRight, Option.map_some] at here
  exact Option.some.inj here

/-- Trees of the current instructions become the branches of the current nodes. -/
theorem Routine.grafted {routine : Routine} (ordered : routine.forest.Ordered)
    (present : ∀ id ∈ routine.sequence, ∃ node, routine.forest.get? id = some node)
    {trees : List Derivation}
    (instructions : trees.map Derivation.instruction = routine.instructions) {growth : Growth}
    (grown : growth = ((routine.sequence.zip routine.nodes).zip trees).foldl
      (fun growth place => Growth.replace growth place.1.1 place.1.2 place.2)
      { forest := routine.forest }) :
    ∃ news : List Branch, news.map Branch.id = routine.sequence ∧ news.map Branch.derivation = trees ∧
      Growth.Grows { forest := routine.forest } growth news (news.flatMap Branch.inside) := by
  have nodes : routine.sequence.map routine.forest.get? = routine.nodes.map some :=
    (map_some_filterMap present).symm
  have lengths : routine.sequence.length = routine.nodes.length := by
    simpa using congrArg List.length nodes
  have treeLengths : trees.length = (routine.sequence.zip routine.nodes).length := by
    simpa [Routine.instructions, lengths] using congrArg List.length instructions
  have sameInstructions : (routine.sequence.zip routine.nodes).map (fun place => place.2.instruction) =
      trees.map Derivation.instruction := by
    rw [instructions, Routine.instructions]
    conv_rhs => rw [← List.map_snd_zip lengths.ge, List.map_map]
    rfl
  obtain ⟨news, ids, derivations, grows⟩ :=
    @Growth.replaceAll_grows ((routine.sequence.zip routine.nodes).zip trees)
      { forest := routine.forest } ordered
      (fun place member => eq_of_mem_zip nodes (List.of_mem_zip member).1)
      (fun place member => (eq_of_mem_zip sameInstructions member).symm)
  rw [← grown] at grows
  refine ⟨news, ids.trans ?_, ?_, grows⟩
  · have outer := List.map_fst_zip treeLengths.ge
    have inner := List.map_fst_zip lengths.le
    rwa [← outer, List.map_map] at inner
  · rw [derivations, List.map_snd_zip treeLengths.le]

namespace Frontier

variable {registry : Registry} {definition : Definition} {routine : Routine}
  {branches : List Branch} {draft : Draft}

theorem expandSelected (frontier : Frontier registry definition routine branches draft)
    {next : Routine} {rounds : Nat} {selected : Nat → Bool}
    (expanded : routine.expandSelected registry rounds selected = .ok next) :
    ∃ branches draft, Frontier registry definition next branches draft := by
  obtain ⟨trees, supply, growth, _, ⟨new, drawn, draws⟩, instructions, grown, rfl⟩ :=
    Routine.expandSelected_ok expanded
  obtain ⟨news, ids, derivations, grows⟩ :=
    Routine.grafted frontier.ordered frontier.present instructions grown
  have full : ∀ branch ∈ news, branch.Full := fun branch member =>
    Branch.full_of_unfolded (drawn.unfolded _ (derivations ▸ List.mem_map_of_mem member))
  have distinct : (news.map Branch.id).Nodup := ids ▸ frontier.sequence_nodup
  have extended := frontier.spread.extend ids grows full
  have tips := frontier.spread.tips ids grows.held
  obtain ⟨total, totalDrawn, within⟩ := Drawn.extend grows.within frontier.drawn frontier.held tips
    (by
      rw [← derivations, ← map_tipOf distinct, List.map_map, ids, frontier.sequence] at drawn
      exact drawn)
  refine ⟨branches.map (Branch.extend (tipOf news)), total, ?_⟩
  exact {
    ordered := extended.ordered
    roots := fun found => grows.within (frontier.roots found)
    covered := by
      rw [List.map_map, ← frontier.covered]
      exact List.map_congr_left fun branch member => Branch.id_extend (tips branch member)
    held := extended.held
    distinct := extended.distinct
    sequence := extended.leaves
    drawn := totalDrawn
    avoids := by
      intro wellFormed
      refine ((frontier.avoids wellFormed).append (draws.avoids.mono ?_)).within within
      intro name _ inUse
      rw [← frontier.names wellFormed] at inUse
      exact routine.taken_supply inUse
    inputs := frontier.inputs
    sourceVars := frontier.sourceVars
    labels := rfl
    vars := .inl rfl }

end Frontier

end CounterMachine
