import CounterMachine.Proofs.Courses
import CounterMachine.Proofs.Parts
import CounterMachine.Proofs.Rounds
import CounterMachine.Proofs.Signatures
set_option autoImplicit false

/-!
# Expansion and collapse of one instruction

The expansion of one instruction puts its children in its place and moves nothing else. Collapse at any of
these children takes all of them back. In general, collapse at an instruction takes back a block: all that
was derived from the parent of the instruction stands together, whatever else is expanded around it.
-/

namespace CounterMachine

/-! ## Blocks that give way -/

theorem replaceTogether_kept {replacement : Nat → Option Nat} {kept : List Nat}
    (stays : ∀ id ∈ kept, replacement id = none) (rest seen : List Nat) :
    replaceTogether replacement (kept ++ rest) seen = kept ++ replaceTogether replacement rest seen := by
  induction kept with
  | nil => rfl
  | cons first others ih =>
      have later := ih fun id member => stays id (List.mem_cons_of_mem _ member)
      simp only [List.cons_append, replaceTogether, stays first List.mem_cons_self, later]

/-- A block gives way to its parent if nothing around it gives way. -/
theorem replaceTogether_block {replacement : Nat → Option Nat} {parent : Nat}
    {before block after : List Nat} (some : block ≠ [])
    (gives : ∀ id ∈ block, replacement id = .some parent)
    (stays : ∀ id ∈ before ++ after, replacement id = none) :
    replaceTogether replacement (before ++ block ++ after) [] = before ++ parent :: after := by
  obtain ⟨first, others, rfl⟩ := List.exists_cons_of_ne_nil some
  have leading : ∀ id ∈ before, replacement id = none :=
    fun id member => stays id (List.mem_append_left _ member)
  have trailing := replaceTogether_kept
    (fun id member => stays id (List.mem_append_right before member)) [] [parent]
  have following := Branch.replaceTogether_seen
    (fun id member => gives id (List.mem_cons_of_mem first member)) (List.mem_singleton_self parent) after
  rw [List.append_assoc, replaceTogether_kept leading, List.cons_append, replaceTogether,
    gives first List.mem_cons_self]
  simp only [List.append_nil, replaceTogether] at trailing
  simp only [List.contains_nil, Bool.false_eq_true, if_false, following, trailing]

namespace Routine

variable {registry : Registry} {definition : Definition} {routine next : Routine}

/-! ## Branches of a routine -/

/-- The sequence consists of the leaves of branches. -/
def Branching (routine : Routine) : Prop :=
  ∃ branches, Spread routine.forest branches routine.sequence

theorem Branching.sameCode (branching : routine.Branching) (same : routine.SameCode next) :
    next.Branching := by
  obtain ⟨branches, spread⟩ := branching
  refine ⟨branches, ?_⟩
  rw [same.forest, same.sequence]
  exact spread

theorem Branching.expandSelected (branching : routine.Branching) {rounds : Nat} {selected : Nat → Bool}
    (expanded : routine.expandSelected registry rounds selected = .ok next) : next.Branching := by
  obtain ⟨branches, spread⟩ := branching
  obtain ⟨trees, supply, growth, _, ⟨new, drawn, _⟩, instructions, grown, rfl⟩ :=
    expandSelected_ok expanded
  obtain ⟨news, ids, derivations, grows⟩ :=
    grafted spread.ordered spread.present instructions grown
  have full : ∀ branch ∈ news, branch.Full := fun branch member =>
    Branch.full_of_unfolded (drawn.unfolded _ (derivations ▸ List.mem_map_of_mem member))
  exact ⟨_, spread.extend ids grows full⟩

theorem Branching.collapse (branching : routine.Branching) : routine.collapse.Branching := by
  unfold Routine.collapse
  dsimp only
  split
  · exact branching
  · next expanded =>
      obtain ⟨branches, spread⟩ := branching
      exact ⟨_, spread.cut fun branch member => spread.replaced_deepest expanded member⟩

theorem Branching.collapseSingle (branching : routine.Branching) {key : String}
    (collapsed : routine.collapseSingle key = .ok next) : next.Branching := by
  rcases collapseSingle_ok collapsed with rfl | ⟨_, parent, _, _, _, _, rfl⟩
  · exact branching
  · obtain ⟨branches, spread⟩ := branching
    exact ⟨_, spread.cut fun branch member => spread.replaced_descendants parent member⟩

theorem Branching.act (branching : routine.Branching) (registry : Registry) (action : Action) :
    (routine.act registry action).Branching :=
  act_keeps branching sameCode (fun before expanded => before.expandSelected expanded) collapse
    (fun before collapsed => before.collapseSingle collapsed) action

end Routine

theorem Definition.Becomes.branching {definition : Definition} {allowed : Action → Prop}
    {routine : Routine} (becomes : definition.Becomes allowed routine) : routine.Branching := by
  induction becomes with
  | source => exact ⟨_, (Frontier.ofDefinition ∅ definition).spread⟩
  | act _ _ registry ih => exact ih.act registry _

/-! ## Expansion of one instruction -/

/-- One round makes every instruction that an instruction stands for a leaf. -/
theorem Instruction.derive_once {registry : Registry} {instruction : Instruction}
    (synthetic : instruction.isBasic = false) :
    instruction.derive registry 1 = do
      let body ← instruction.operation.expansion registry
      return .node instruction ((labelFirst instruction.label body).map .leaf) := by
  have leaves : Instruction.derive registry 0 = fun instruction => pure (.leaf instruction) := by
    funext instruction
    rw [derive]
  simp only [derive_synthetic synthetic, leaves, List.mapM_pure, pure_bind]

theorem mapM_unselected {registry : Registry} {rounds position : Nat} {places : List (Instruction × Nat)}
    (others : ∀ place ∈ places, place.2 ≠ position) :
    (places.mapM fun (instruction, place) =>
      if place = position then instruction.derive registry rounds else return .leaf instruction) =
      (return (places.map Prod.fst).map .leaf : Fresh (List Derivation)) := by
  induction places with
  | nil => rfl
  | cons place rest ih =>
      have later := ih fun other member => others other (List.mem_cons_of_mem _ member)
      simp only [List.mapM_cons, others place List.mem_cons_self, later, if_false, pure_bind, List.map_cons]

namespace Routine

variable {registry : Registry} {definition : Definition} {routine next : Routine}

theorem derivations_single {left right : List Instruction} {instruction : Instruction}
    (split : routine.instructions = left ++ instruction :: right) (rounds : Nat) :
    routine.derivations registry rounds (· = left.length) = do
      let tree ← instruction.derive registry rounds
      return left.map .leaf ++ tree :: right.map .leaf := by
  have leading : ∀ place ∈ left.zipIdx, place.2 ≠ left.length := by
    intro place member
    have bound := List.snd_lt_of_mem_zipIdx member
    omega
  have trailing : ∀ place ∈ right.zipIdx (left.length + 1), place.2 ≠ left.length := by
    intro place member
    have bound := List.le_snd_of_mem_zipIdx member
    omega
  simp only [derivations, split, List.zipIdx_append, List.zipIdx_cons, Nat.zero_add, List.mapM_append,
    List.mapM_cons, decide_eq_true_eq, mapM_unselected leading, mapM_unselected trailing, if_true,
    pure_bind, bind_assoc, List.zipIdx_map_fst]

end Routine

namespace Forest

/-- Some nodes are the children of a node, with the instructions of some code, in the order of their
ordinals. -/
def Children (forest : Forest) (id : Nat) (parent : Node) (code : List Instruction)
    (children : List Nat) : Prop :=
  children.map forest.get? = code.zipIdx.map fun (instruction, ordinal) =>
    some (parent.child id ordinal instruction)

variable {forest : Forest} {id : Nat} {parent : Node} {code : List Instruction} {children : List Nat}

theorem Children.getElem? (family : forest.Children id parent code children) (ordinal : Nat) :
    children[ordinal]?.map forest.get? =
      code[ordinal]?.map fun instruction => some (parent.child id ordinal instruction) := by
  have here := congrArg (·[ordinal]?) family
  simpa [List.getElem?_zipIdx, Function.comp_def] using here

theorem Children.linked (family : forest.Children id parent code children) {child : Nat}
    (member : child ∈ children) : ∃ node, forest.get? child = some node ∧ node.parent = some id := by
  obtain ⟨ordinal, there⟩ := List.mem_iff_getElem?.mp member
  have here := family.getElem? ordinal
  rw [there, Option.map_some, eq_comm, Option.map_eq_some_iff] at here
  obtain ⟨instruction, _, found⟩ := here
  exact ⟨_, found.symm, rfl⟩

end Forest

namespace Branch

/-- Branches whose trees are leaves are leaves. -/
theorem leaves_of_leaves {branches : List Branch} {instructions : List Instruction}
    (derivations : branches.map derivation = instructions.map .leaf) :
    branches.flatMap leaves = branches.map id ∧ branches.map instruction = instructions := by
  induction branches generalizing instructions with
  | nil =>
      cases instructions with
      | nil => exact ⟨rfl, rfl⟩
      | cons => cases derivations
  | cons branch rest ih =>
      cases instructions with
      | nil => cases derivations
      | cons instruction others =>
          rw [List.map_cons, List.map_cons, List.cons.injEq] at derivations
          obtain ⟨leaves, instructions⟩ := ih derivations.2
          cases branch with
          | node place own children => simp at derivations
          | leaf place own =>
              rw [derivation_leaf, Derivation.leaf.injEq] at derivations
              simp [leaves, instructions, derivations.1, id, Branch.instruction]

theorem In.children {forest : Forest} {id : Nat} {node : Node} {instruction : Instruction}
    {children : List Branch} (held : (Branch.node id instruction children).In forest)
    (found : forest.get? id = some node) :
    forest.Children id node (children.map Branch.instruction) (children.map Branch.id) := by
  cases held with
  | @node _ origin _ present linked _ =>
      cases found.symm.trans present
      apply List.ext_getElem?
      intro ordinal
      simp only [List.getElem?_map, List.getElem?_zipIdx, Option.map_map]
      cases here : children[ordinal]? with
      | none => rfl
      | some child => simp [linked here]

end Branch

namespace Routine

variable {registry : Registry} {definition : Definition} {routine next : Routine}

/-- The expansion of one instruction puts its children in its place. -/
theorem expandSelected_single (consistent : routine.Consistent definition) {left right : List Nat} {id : Nat}
    {node : Node} (split : routine.sequence = left ++ id :: right)
    (found : routine.forest.get? id = some node) (synthetic : node.instruction.isBasic = false)
    (expanded : routine.expandSelected registry 1 (· = left.length) = .ok next) :
    ∃ body supply children,
      node.instruction.operation.expansion registry routine.supply = .ok (body, supply) ∧
      next.sequence = left ++ children ++ right ∧
      next.forest.Children id node (labelFirst node.instruction.label body) children ∧
      routine.forest.Within next.forest := by
  obtain ⟨news, last, _, grown, derived, _, _⟩ :=
    expandSelected_grown consistent.ordered consistent.present expanded
  -- The instructions are split where the sequence is.
  let code (ids : List Nat) := (ids.filterMap routine.forest.get?).map Node.instruction
  have length : (code left).length = left.length := by
    have present : ∀ id ∈ left, ∃ node, routine.forest.get? id = some node := fun id member =>
      consistent.present id (split ▸ List.mem_append_left _ member)
    simpa [code] using congrArg List.length (map_some_filterMap present)
  have instructions : routine.instructions = code left ++ node.instruction :: code right := by
    simp only [Routine.instructions, nodes, split, List.filterMap_append, List.filterMap_cons_some found,
      List.map_append, List.map_cons, code]
  rw [← length, derivations_single instructions, Instruction.derive_once synthetic] at derived
  obtain ⟨tree, middle, once, around⟩ := Fresh.bind_ok derived
  obtain ⟨body, supply, expansion, once⟩ := Fresh.bind_ok once
  obtain ⟨rfl, rfl⟩ := Fresh.pure_ok once
  have trees := (Fresh.pure_ok around).1
  -- The branches are split in the same way.
  obtain ⟨leading, others, rfl, atLeft, atRest⟩ := List.map_eq_append_iff.mp trees.symm
  obtain ⟨branch, trailing, rfl, atBranch, atRight⟩ := List.map_eq_cons_iff.mp atRest
  have ids := grown.ids
  simp only [List.map_append, List.map_cons, split] at ids
  have sameLength : (leading.map Branch.id).length = left.length := by
    have lengths := congrArg List.length atLeft
    simp only [List.length_map] at lengths ⊢
    exact lengths.trans length
  obtain ⟨leftIds, restIds⟩ := List.append_inj ids sameLength
  obtain ⟨here, rightIds⟩ := List.cons.inj restIds
  cases branch with
  | leaf => simp at atBranch
  | node place instruction children =>
      obtain rfl : place = id := here
      rw [Branch.derivation_node, Derivation.node.injEq] at atBranch
      obtain ⟨leaves, same⟩ := Branch.leaves_of_leaves atBranch.2
      have held := grown.held (.node place instruction children) (by simp)
      refine ⟨body, supply, children.map Branch.id, expansion, ?_, ?_, grown.within⟩
      · rw [grown.sequence, List.flatMap_append, List.flatMap_cons, Branch.leaves_node, leaves,
          (Branch.leaves_of_leaves atLeft).1, (Branch.leaves_of_leaves atRight).1, leftIds, rightIds,
          List.append_assoc]
      · rw [← same]
        exact held.children (grown.within found)

/-! ## Collapse of one block -/

theorem collapseSingle_block {key : String} {position parent : Nat} {node : Node}
    (found : routine.find key = .ok position) (here : routine.node? position = some node)
    (derived : node.parent = some parent) {before block after : List Nat}
    (split : routine.sequence = before ++ block ++ after) (some : block ≠ [])
    (below : ∀ id ∈ block, parent ∈ routine.forest.ancestors id)
    (apart : ∀ id ∈ before ++ after, parent ∉ routine.forest.ancestors id) :
    routine.collapseSingle key =
      .ok (refresh { routine with sequence := before ++ parent :: after }) := by
  have gives : ∀ id ∈ block,
      (if routine.forest.descends id parent then Option.some parent else none) = .some parent := by
    intro id member
    simp only [Forest.descends, List.contains_iff_mem, below id member, if_true]
  have stays : ∀ id ∈ before ++ after,
      (if routine.forest.descends id parent then Option.some parent else none) = none := by
    intro id member
    simp only [Forest.descends, List.contains_iff_mem, apart id member, if_false]
  simp only [collapseSingle, found, here, Option.bind_some, derived, split,
    replaceTogether_block some gives stays]

/-- Collapse at any child of an expanded instruction gives the routine before the expansion back. -/
theorem collapseSingle_child (becomes : definition.Becomes (fun _ => True) routine)
    (alsoBecomes : definition.Becomes (fun _ => True) next) (within : routine.forest.Within next.forest)
    {left right children : List Nat} {id : Nat} (split : routine.sequence = left ++ id :: right)
    (spliced : next.sequence = left ++ children ++ right)
    (derived : ∀ child ∈ children, ∃ node, next.forest.get? child = some node ∧ node.parent = some id)
    {child : Nat} {node : Node} (member : child ∈ children) (found : next.forest.get? child = some node) :
    ∃ restored, next.collapseSingle node.signature.text = .ok restored ∧
      restored.sequence = routine.sequence ∧ restored.nodes = routine.nodes ∧
      restored.state.labels = routine.state.labels := by
  obtain ⟨position, there⟩ : ∃ position : Nat, next.sequence[position]? = some child := by
    apply List.mem_iff_getElem?.mp
    simp only [spliced, List.mem_append, member, true_or, or_true]
  have here : next.node? position = some node := by simp only [node?, there, Option.bind_some, found]
  have key := find_text alsoBecomes.consistent alsoBecomes.discerned here
  obtain ⟨_, present, parent⟩ := derived child member
  cases found.symm.trans present
  have below : ∀ other ∈ children, id ∈ next.forest.ancestors other := by
    intro other inChildren
    obtain ⟨node, present, parent⟩ := derived other inChildren
    rw [alsoBecomes.consistent.ordered.ancestors_child present parent]
    exact List.mem_cons_self
  have apart : ∀ other ∈ left ++ right, id ∉ next.forest.ancestors other := by
    intro other around
    have inSequence : other ∈ routine.sequence := by
      simp only [split, List.mem_append, List.mem_cons] at around ⊢
      tauto
    obtain ⟨node, present⟩ := becomes.consistent.present other inSequence
    rw [becomes.consistent.ordered.ancestors_within within present]
    exact becomes.discerned.apart (split ▸ List.mem_append_right _ List.mem_cons_self) inSequence
  have nodes : (left ++ id :: right).filterMap next.forest.get? = routine.nodes := by
    rw [Routine.nodes, ← split]
    apply List.filterMap_congr
    intro other inSequence
    obtain ⟨node, present⟩ := becomes.consistent.present other inSequence
    rw [present, within present]
  have collapsed := collapseSingle_block key here parent spliced (List.ne_nil_of_mem member) below apart
  refine ⟨_, collapsed, split.symm, nodes, ?_⟩
  simp only [becomes.inLine.labels, refresh, labelPositions, instructions, Routine.nodes, nodes]

theorem node_of_find (consistent : routine.Consistent definition) {key : String} {position : Nat}
    (found : routine.find key = .ok position) :
    ∃ id node, routine.sequence[position]? = some id ∧ routine.forest.get? id = some node := by
  unfold find at found
  split at found
  · next first =>
      cases found
      obtain ⟨inside, _⟩ := List.findIdx?_eq_some_iff_getElem.mp first
      have here := (consistent.getElem?_nodes position).symm.trans (List.getElem?_eq_getElem inside)
      obtain ⟨id, there, present⟩ := Option.bind_eq_some_iff.mp here
      exact ⟨id, _, there, present⟩
  · cases found

/-- Collapse at a derived instruction takes back the block of its parent. -/
theorem collapseSingle_together (consistent : routine.Consistent definition) (branching : routine.Branching)
    {key : String} {position id parent : Nat} {node : Node} (found : routine.find key = .ok position)
    (there : routine.sequence[position]? = some id) (present : routine.forest.get? id = some node)
    (derived : node.parent = some parent) :
    ∃ next before block after, routine.collapseSingle key = .ok next ∧
      routine.sequence = before ++ block ++ after ∧ id ∈ block ∧
      (∀ other ∈ block, parent ∈ routine.forest.ancestors other) ∧
      (∀ other ∈ before ++ after, parent ∉ routine.forest.ancestors other) ∧
      next.sequence = before ++ parent :: after ∧ next.forest = routine.forest := by
  obtain ⟨branches, spread⟩ := branching
  have here : routine.node? position = some node := by simp only [node?, there, Option.bind_some, present]
  have above : parent ∈ routine.forest.ancestors id := by
    rw [consistent.ordered.ancestors_child present derived]
    exact List.mem_cons_self
  have inSequence := List.mem_of_getElem? there
  obtain ⟨before, block, after, split, below, apart⟩ := spread.together inSequence above
  have member : id ∈ block := by
    by_contra outside
    rw [split] at inSequence
    simp only [List.mem_append, outside, or_false] at inSequence
    exact apart id (List.mem_append.mpr inSequence) above
  have collapsed := collapseSingle_block found here derived split (List.ne_nil_of_mem member) below apart
  exact ⟨_, before, block, after, collapsed, split, member, below, apart, rfl, rfl⟩

/-- Targeted collapse undoes targeted expansion. Whatever was done to a routine since its definition, the
expansion of one instruction puts its children, in order and the first with its label, in its place, and
keeps what is before and after. Collapse at any of these children restores the sequence and the labels.
Collapse at any instruction that was derived from another one takes away exactly what was derived from the
parent, which stands together, and puts the parent in its place. -/
theorem collapse_undoes_expansion (becomes : definition.Becomes (fun _ => True) routine) :
    (∀ (registry : Registry) left id right node next, routine.sequence = left ++ id :: right →
      routine.forest.get? id = some node → node.instruction.isBasic = false →
      routine.expandSingle registry node.signature.text 1 = .ok next →
      ∃ body supply children,
        node.instruction.operation.expansion registry routine.supply = .ok (body, supply) ∧
        next.sequence = left ++ children ++ right ∧ children ≠ [] ∧
        next.forest.Children id node (labelFirst node.instruction.label body) children ∧
        routine.forest.Within next.forest ∧
        ∀ ordinal instruction, (labelFirst node.instruction.label body)[ordinal]? = some instruction →
          ∃ restored,
            next.collapseSingle (node.child id ordinal instruction).signature.text = .ok restored ∧
            restored.sequence = routine.sequence ∧ restored.nodes = routine.nodes ∧
            restored.state.labels = routine.state.labels) ∧
    ∀ key, (∀ failure, routine.find key = .error failure → routine.collapseSingle key = .error failure) ∧
      ∀ position, routine.find key = .ok position →
        ∃ id node, routine.sequence[position]? = some id ∧ routine.forest.get? id = some node ∧
          (node.parent = none → routine.collapseSingle key = .ok routine) ∧
          ∀ parent, node.parent = some parent → ∃ next before block after,
            routine.collapseSingle key = .ok next ∧ routine.sequence = before ++ block ++ after ∧
            id ∈ block ∧ (∀ other ∈ block, parent ∈ routine.forest.ancestors other) ∧
            (∀ other ∈ before ++ after, parent ∉ routine.forest.ancestors other) ∧
            next.sequence = before ++ parent :: after ∧ next.forest = routine.forest := by
  constructor
  · intro registry left id right node next split found synthetic expanded
    have here : routine.node? left.length = some node := by
      simp only [node?, split, List.getElem?_append_right (Nat.le_refl _), Nat.sub_self,
        List.getElem?_cons_zero, Option.bind_some, found]
    have later : definition.Becomes (fun _ => True) next := by
      have acted : definition.Becomes (fun _ => True)
          (routine.act registry (.expandSingle node.signature.text 1)) := becomes.act trivial registry
      rwa [act, expanded] at acted
    obtain ⟨position, key, selected⟩ := expandSingle_ok expanded
    rw [find_text becomes.consistent becomes.discerned here] at key
    cases key
    obtain ⟨body, supply, children, expansion, spliced, family, within⟩ :=
      expandSelected_single becomes.consistent split found synthetic selected
    refine ⟨body, supply, children, expansion, spliced, ?_, family, within, ?_⟩
    · rintro rfl
      obtain ⟨draft, stands, _⟩ := Operation.expansion_ok synthetic expansion
      obtain ⟨first, rest, rfl⟩ := stands.starts
      cases family.getElem? 0
    · intro ordinal instruction there
      have here := family.getElem? ordinal
      rw [there, Option.map_some, Option.map_eq_some_iff] at here
      obtain ⟨child, member, present⟩ := here
      exact collapseSingle_child becomes later within split spliced (fun _ => family.linked)
        (List.mem_of_getElem? member) present
  · intro key
    constructor
    · intro failure missing
      simp only [collapseSingle, missing]
    · intro position found
      obtain ⟨id, node, there, present⟩ := node_of_find becomes.consistent found
      refine ⟨id, node, there, present, ?_, ?_⟩
      · intro source
        simp only [collapseSingle, found, node?, there, Option.bind_some, present, source]
      · intro parent derived
        exact collapseSingle_together becomes.consistent becomes.branching found there present derived

/-- Two instructions of different kinds. -/
def clearsAndLeaves : Definition :=
  ⟨"Main", [.plain (.zeroVariable .result), .labeled (.named 1) (.gotoLabel .exit)]⟩

/-- The second instruction is expanded next to what the first one was expanded into, and its second child
takes it back. -/
theorem clearsAndLeaves_collapse_undoes_expansion :
    let routine := (ofDefinition clearsAndLeaves).act ∅
      (.expandSingle (Node.root 0 (.plain (.zeroVariable .result))).signature.text 1)
    let node := Node.root 1 (.labeled (.named 1) (.gotoLabel .exit))
    let second := node.child 1 1 (.plain (.jumpNotZero (.work 2) .exit))
    routine.sequence = [2, 3, 4, 5, 6, 7, 1] ∧
    ∃ next restored, routine.expandSingle ∅ node.signature.text 1 = .ok next ∧
      next.collapseSingle second.signature.text = .ok restored ∧ restored.sequence = routine.sequence := by
  intro routine node second
  have becomes : clearsAndLeaves.Becomes (fun _ => True) routine := .act .source trivial ∅
  have sequence : routine.sequence = [2, 3, 4, 5, 6, 7] ++ 1 :: [] := by decide +kernel
  have found : routine.forest.get? 1 = some node := by decide +kernel
  have drawn : (node.instruction.operation.expansion ∅ routine.supply).toOption.map Prod.fst =
      some [.plain (.increase (.work 2)), .plain (.jumpNotZero (.work 2) .exit)] := by decide +kernel
  have success : (routine.expandSelected ∅ 1 (· = 6)).toOption.isSome = true := by decide +kernel
  cases selected : routine.expandSelected ∅ 1 (· = 6) with
  | error failure =>
      rw [selected] at success
      cases success
  | ok next =>
      -- The key is found by the theory of signatures, without computing a handle.
      have here : routine.node? 6 = some node := by
        rw [node?, sequence]
        exact found
      have key := find_text becomes.consistent becomes.discerned here
      have expanded : routine.expandSingle ∅ node.signature.text 1 = .ok next := by
        rw [expandSingle, key]
        exact selected
      obtain ⟨expands, _⟩ := collapse_undoes_expansion becomes
      obtain ⟨body, supply, children, expansion, _, _, _, _, collapses⟩ :=
        expands ∅ _ 1 [] node next sequence found (by decide) expanded
      rw [expansion] at drawn
      cases drawn
      obtain ⟨restored, collapsed, same, _⟩ := collapses 1 _ rfl
      exact ⟨sequence, next, restored, expanded, collapsed, same⟩

end Routine

end CounterMachine
