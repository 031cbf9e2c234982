import CounterMachine.Proofs.Frontier
set_option autoImplicit false

/-!
# Collapse of a frontier

Every way of collapsing cuts the branches of a frontier: at the nodes just above the deepest leaves, or at the
parent of a chosen instruction. Repeated collapse ends with the definition.
-/

namespace CounterMachine

namespace Branch

variable {registry : Registry} {forest : Forest} {branch : Branch}

theorem In.depth_le_leaf (held : branch.In forest) {node : Node}
    (found : forest.get? branch.id = some node) {leaf : Nat} (member : leaf ∈ branch.leaves) {bottom : Node}
    (bottomFound : forest.get? leaf = some bottom) : node.depth ≤ bottom.depth := by
  induction held generalizing node with
  | leaf present =>
      obtain rfl := List.mem_singleton.mp (leaves_leaf _ _ ▸ member)
      rw [id, bottomFound] at found
      cases found
      exact Nat.le_refl _
  | @node id origin children present linked inner ih =>
      rw [leaves_node, List.mem_flatMap] at member
      obtain ⟨child, inChildren, member⟩ := member
      obtain ⟨ordinal, place⟩ := List.mem_iff_getElem?.mp inChildren
      have below := ih child inChildren (linked place) member
      rw [Branch.id, present] at found
      cases found
      exact Nat.le_of_succ_le below

/-- Cutting at the parents of the deepest leaves replaces these leaves by their parents. -/
theorem replaced_deepest {routine : Routine} {deepest : Nat} (held : branch.In routine.forest)
    (full : branch.Full) {node : Node}
    (found : routine.forest.get? branch.id = some node) (above : node.depth < deepest)
    (bounded : ∀ leaf ∈ branch.leaves, ∀ bottom, routine.forest.get? leaf = some bottom →
      bottom.depth ≤ deepest) :
    branch.Replaced
      (fun id => (routine.forest.get? id).any fun node => node.depth + 1 = deepest)
      (routine.parentAtDepth? deepest) := by
  induction held generalizing node with
  | leaf present =>
      refine .leaf ?_
      rw [id, present] at found
      cases found
      simp [Routine.parentAtDepth?, present, Nat.ne_of_lt above]
  | @node id origin children present linked inner ih =>
      rw [Branch.id, present] at found
      cases found
      have childBounded : ∀ child ∈ children, ∀ leaf ∈ child.leaves, ∀ bottom,
          routine.forest.get? leaf = some bottom → bottom.depth ≤ deepest := by
        intro child inChildren leaf inChild
        apply bounded
        rw [leaves_node]
        exact List.mem_flatMap_of_mem inChildren inChild
      by_cases last : origin.depth + 1 = deepest
      · have nonempty := full.leaves_ne_nil
        rw [leaves_node] at nonempty
        refine .cut (by simp [present, last]) nonempty ?_
        intro leaf member
        obtain ⟨child, inChildren, inChild⟩ := List.mem_flatMap.mp member
        obtain ⟨ordinal, place⟩ := List.mem_iff_getElem?.mp inChildren
        have childFound := linked place
        have childFull := full.child inChildren
        -- A child with children would have a leaf that is too deep.
        cases inner child inChildren with
        | @leaf childId childNode childPresent =>
            obtain rfl := List.mem_singleton.mp (leaves_leaf _ _ ▸ inChild)
            rw [Branch.id] at childFound
            simp [Routine.parentAtDepth?, childFound, Node.child, last]
        | @node childId childNode grandchildren childPresent childLinked childInner =>
            obtain ⟨bottomId, inLeaves⟩ := List.exists_mem_of_ne_nil _ childFull.leaves_ne_nil
            obtain ⟨grandchild, inGrandchildren, inGrandchild⟩ :=
              List.mem_flatMap.mp (leaves_node _ _ _ ▸ inLeaves)
            obtain ⟨grandOrdinal, grandPlace⟩ := List.mem_iff_getElem?.mp inGrandchildren
            obtain ⟨bottom, bottomFound⟩ :=
              (childInner grandchild inGrandchildren).get?_leaf bottomId inGrandchild
            have deep := (childInner grandchild inGrandchildren).depth_le_leaf
              (childLinked grandPlace) inGrandchild bottomFound
            have shallow := childBounded _ inChildren bottomId inLeaves bottom bottomFound
            have depth := congrArg Node.depth (Option.some.inj (childPresent.symm.trans childFound))
            simp only [Node.child] at deep depth
            omega
      · refine .keep (by simp [present, last]) ?_
        intro child inChildren
        obtain ⟨ordinal, place⟩ := List.mem_iff_getElem?.mp inChildren
        refine ih child inChildren (full.child inChildren) (linked place) ?_
          (childBounded child inChildren)
        simp only [Node.child]
        omega

theorem In.ancestor_leaf (held : branch.In forest) (ordered : forest.Ordered) {ancestor : Nat}
    (above : ancestor ∈ forest.ancestors branch.id) {leaf : Nat} (member : leaf ∈ branch.leaves) :
    ancestor ∈ forest.ancestors leaf := by
  induction held with
  | leaf present =>
      obtain rfl := List.mem_singleton.mp (leaves_leaf _ _ ▸ member)
      exact above
  | @node id origin children present linked inner ih =>
      rw [leaves_node, List.mem_flatMap] at member
      obtain ⟨child, inChildren, member⟩ := member
      obtain ⟨ordinal, place⟩ := List.mem_iff_getElem?.mp inChildren
      refine ih child inChildren ?_ member
      rw [ordered.ancestors_child (linked place) rfl]
      exact List.mem_cons_of_mem _ above

theorem replaced_descendants (held : branch.In forest) (ordered : forest.Ordered) (full : branch.Full)
    {parent : Nat}
    (outside : parent ∉ forest.ancestors branch.id) :
    branch.Replaced (fun id => id = parent)
      (fun id => if forest.descends id parent then some parent else none) := by
  induction held with
  | leaf present =>
      refine .leaf ?_
      rw [Branch.id] at outside
      simp [Forest.descends, outside]
  | @node id origin children present linked inner ih =>
      by_cases same : id = parent
      · subst same
        have nonempty := full.leaves_ne_nil
        rw [leaves_node] at nonempty
        refine .cut (by simp) nonempty ?_
        intro leaf member
        obtain ⟨child, inChildren, inChild⟩ := List.mem_flatMap.mp member
        obtain ⟨ordinal, place⟩ := List.mem_iff_getElem?.mp inChildren
        have below : id ∈ forest.ancestors leaf := by
          refine (inner child inChildren).ancestor_leaf ordered ?_ inChild
          rw [ordered.ancestors_child (linked place) rfl]
          exact List.mem_cons_self
        simp [Forest.descends, below]
      · refine .keep (by simp [same]) ?_
        intro child inChildren
        obtain ⟨ordinal, place⟩ := List.mem_iff_getElem?.mp inChildren
        refine ih child inChildren (full.child inChildren) ?_
        rw [ordered.ancestors_child (linked place) rfl, List.mem_cons]
        intro found
        rcases found with equal | above
        · exact same equal.symm
        · exact outside above

end Branch

theorem foldl_max_le {values : List Nat} {start bound : Nat} :
    values.foldl max start ≤ bound ↔ start ≤ bound ∧ ∀ value ∈ values, value ≤ bound := by
  induction values generalizing start with
  | nil => simp
  | cons value rest ih =>
      rw [List.foldl_cons, ih, Nat.max_le]
      simp [and_assoc]

theorem attained {α : Type} {members : List α} {value : α → Nat} {top : Nat}
    (least : ∀ bound, top ≤ bound ↔ ∀ member ∈ members, value member ≤ bound) (positive : 0 < top) :
    ∃ member ∈ members, value member = top := by
  by_contra none
  have below : top ≤ top - 1 := by
    refine (least _).mpr fun member inMembers => ?_
    have bounded := (least top).mp (Nat.le_refl top) member inMembers
    have different : value member ≠ top := fun same => none ⟨member, inMembers, same⟩
    omega
  omega

namespace Routine

variable {routine : Routine} {id : Nat}

theorem maxDepth_le {bound : Nat} :
    routine.maxDepth ≤ bound ↔ ∀ node ∈ routine.nodes, node.depth ≤ bound := by
  simp [maxDepth, foldl_max_le]

theorem mem_nodes {node : Node} :
    node ∈ routine.nodes ↔ ∃ id ∈ routine.sequence, routine.forest.get? id = some node := by
  simp [nodes]

theorem depth_le_maxDepth {node : Node} (member : id ∈ routine.sequence)
    (found : routine.forest.get? id = some node) : node.depth ≤ routine.maxDepth :=
  maxDepth_le.mp (Nat.le_refl _) node (mem_nodes.mpr ⟨id, member, found⟩)

/-- A node at a depth gives way to its parent, one level above. -/
theorem parentAtDepth?_some (ordered : routine.forest.Ordered) {depth parent : Nat}
    (replaced : routine.parentAtDepth? depth id = some parent) :
    parent ∈ routine.forest.ancestors id ∧
      ∃ origin, routine.forest.get? parent = some origin ∧ depth = origin.depth + 1 := by
  obtain ⟨node, found, here⟩ := Option.bind_eq_some_iff.mp replaced
  split at here
  · next atDepth =>
      obtain ⟨_, origin, originFound, lower⟩ := ordered.child found here
      refine ⟨?_, origin, originFound, atDepth ▸ lower⟩
      rw [ordered.ancestors_child found here]
      exact List.mem_cons_self
  · cases here

theorem parentAtDepth?_ne_none (ordered : routine.forest.Ordered) {node : Node}
    (found : routine.forest.get? id = some node) {depth : Nat} (atDepth : node.depth = depth)
    (derived : depth ≠ 0) : routine.parentAtDepth? depth id ≠ none := by
  rw [parentAtDepth?, found, Option.bind_some, if_pos atDepth]
  intro root
  exact derived (atDepth.symm.trans (ordered.root found root))

theorem collapse_of_expanded (expanded : routine.maxDepth ≠ 0) :
    routine.collapse = refresh { routine with
      sequence := replaceTogether (routine.parentAtDepth? routine.maxDepth) routine.sequence [] } := by
  rw [collapse]
  exact if_neg expanded

/-- Collapse takes away exactly the deepest level. -/
theorem maxDepth_collapse (ordered : routine.forest.Ordered) (expanded : routine.maxDepth ≠ 0) :
    routine.collapse.maxDepth + 1 = routine.maxDepth := by
  have nodes : ∀ {node}, node ∈ routine.collapse.nodes ↔
      ∃ id ∈ replaceTogether (routine.parentAtDepth? routine.maxDepth) routine.sequence [],
        routine.forest.get? id = some node := by
    intro node
    rw [mem_nodes, collapse_of_expanded expanded]
    rfl
  apply Nat.le_antisymm
  · suffices lower : routine.collapse.maxDepth ≤ routine.maxDepth - 1 by omega
    refine maxDepth_le.mpr fun node member => ?_
    obtain ⟨id, member, found⟩ := nodes.mp member
    rcases mem_replaceTogether.mp member with ⟨kept, stays⟩ | ⟨_, other, _, replaced⟩
    · have bound := depth_le_maxDepth kept found
      have different : node.depth ≠ routine.maxDepth := fun deepest =>
        parentAtDepth?_ne_none ordered found deepest expanded stays
      omega
    · obtain ⟨_, origin, originFound, above⟩ := parentAtDepth?_some ordered replaced
      rw [found] at originFound
      cases originFound
      omega
  · obtain ⟨deepest, member, depth⟩ := attained (fun _ => maxDepth_le) (Nat.pos_of_ne_zero expanded)
    obtain ⟨id, member, found⟩ := mem_nodes.mp member
    obtain ⟨parent, replaced⟩ := Option.ne_none_iff_exists'.mp
      (parentAtDepth?_ne_none ordered found depth expanded)
    obtain ⟨_, origin, originFound, above⟩ := parentAtDepth?_some ordered replaced
    have left : origin ∈ routine.collapse.nodes :=
      nodes.mpr ⟨parent, mem_replaceTogether.mpr (.inr ⟨List.not_mem_nil, id, member, replaced⟩), originFound⟩
    have bound : origin.depth ≤ routine.collapse.maxDepth := maxDepth_le.mp (Nat.le_refl _) origin left
    omega

end Routine

namespace Spread

variable {routine : Routine} {branches : List Branch}

theorem replaced_deepest (spread : Spread routine.forest branches routine.sequence)
    (expanded : routine.maxDepth ≠ 0) {branch : Branch} (member : branch ∈ branches) :
    branch.Replaced
      (fun id => (routine.forest.get? id).any fun node => node.depth + 1 = routine.maxDepth)
      (routine.parentAtDepth? routine.maxDepth) := by
  obtain ⟨node, found, root⟩ := spread.roots branch member
  have depth := spread.ordered.root found root
  refine Branch.replaced_deepest (spread.held branch member) (spread.full branch member) found
    (by omega) ?_
  intro leaf inBranch bottom bottomFound
  exact Routine.depth_le_maxDepth (spread.leaf_mem member inBranch) bottomFound

theorem replaced_descendants (spread : Spread routine.forest branches routine.sequence) (parent : Nat)
    {branch : Branch} (member : branch ∈ branches) :
    branch.Replaced (fun id => id = parent)
      (fun id => if routine.forest.descends id parent then some parent else none) := by
  refine Branch.replaced_descendants (spread.held branch member) spread.ordered
    (spread.full branch member) ?_
  rw [spread.ancestors_root member]
  exact List.not_mem_nil

end Spread

namespace Frontier

variable {registry : Registry} {definition : Definition} {routine : Routine}
  {branches : List Branch} {draft : Draft}

theorem unfolded (frontier : Frontier registry definition routine branches draft) {branch : Branch}
    (member : branch ∈ branches) : branch.derivation.Unfolded registry :=
  frontier.drawn.unfolded _ (List.mem_map_of_mem member)

theorem leaf_mem (frontier : Frontier registry definition routine branches draft) {branch : Branch}
    (member : branch ∈ branches) {leaf : Nat} (inBranch : leaf ∈ branch.leaves) :
    leaf ∈ routine.sequence :=
  frontier.spread.leaf_mem member inBranch

theorem root_of_mem (frontier : Frontier registry definition routine branches draft) {branch : Branch}
    (member : branch ∈ branches) :
    ∃ position instruction, definition.body[position]? = some instruction ∧ branch.id = position ∧
      routine.forest.get? branch.id = some (.root position instruction) := by
  have inRange := List.mem_map_of_mem (f := Branch.id) member
  rw [frontier.covered, List.mem_range] at inRange
  have found := List.getElem?_eq_getElem inRange
  exact ⟨branch.id, _, found, rfl, frontier.roots found⟩

theorem cut (frontier : Frontier registry definition routine branches draft) {here : Nat → Bool}
    {replacement : Nat → Option Nat}
    (replaced : ∀ branch ∈ branches, branch.Replaced here replacement) :
    ∃ part, Frontier registry definition
      (Routine.refresh { routine with
        sequence := replaceTogether replacement routine.sequence [] })
      (branches.map (Branch.cut here)) part := by
  obtain ⟨part, drawn, within⟩ := frontier.drawn.cut here
  have trimmed := frontier.spread.cut replaced
  refine ⟨part, ?_⟩
  exact {
    ordered := frontier.ordered
    roots := frontier.roots
    covered := by
      rw [List.map_map, ← frontier.covered]
      exact List.map_congr_left fun branch _ => Branch.id_cut branch
    held := trimmed.held
    distinct := trimmed.distinct
    sequence := trimmed.leaves
    drawn
    avoids := fun wellFormed => (frontier.avoids wellFormed).within within
    inputs := frontier.inputs
    sourceVars := frontier.sourceVars
    labels := rfl
    vars := .inl rfl }

theorem collapse (frontier : Frontier registry definition routine branches draft) :
    ∃ branches draft, Frontier registry definition routine.collapse branches draft := by
  unfold Routine.collapse
  dsimp only
  split
  · exact ⟨branches, draft, frontier⟩
  · next expanded =>
      obtain ⟨part, trimmed⟩ := frontier.cut fun branch member =>
        frontier.spread.replaced_deepest expanded member
      exact ⟨_, part, trimmed⟩

theorem collapseSingle (frontier : Frontier registry definition routine branches draft) {key : String}
    {next : Routine} (collapsed : routine.collapseSingle key = .ok next) :
    ∃ branches draft, Frontier registry definition next branches draft := by
  unfold Routine.collapseSingle at collapsed
  split at collapsed
  · cases collapsed
  · split at collapsed
    · cases collapsed
      exact ⟨branches, draft, frontier⟩
    · next parent _ =>
        cases collapsed
        obtain ⟨part, trimmed⟩ := frontier.cut fun branch member =>
          frontier.spread.replaced_descendants parent member
        exact ⟨_, part, trimmed⟩

theorem repeat_collapse (frontier : Frontier registry definition routine branches draft) (rounds : Nat) :
    (∃ branches draft,
      Frontier registry definition (Nat.repeat Routine.collapse rounds routine) branches draft) ∧
    (Nat.repeat Routine.collapse rounds routine).maxDepth ≤ routine.maxDepth - rounds := by
  induction rounds with
  | zero => exact ⟨⟨branches, draft, frontier⟩, Nat.le_refl _⟩
  | succ rounds ih =>
      obtain ⟨⟨between, drawn, middle⟩, depth⟩ := ih
      refine ⟨middle.collapse, ?_⟩
      rw [Nat.repeat]
      by_cases expanded : (Nat.repeat Routine.collapse rounds routine).maxDepth = 0
      · rw [Routine.collapse, if_pos expanded, expanded]
        exact Nat.zero_le _
      · have less := Routine.maxDepth_collapse middle.ordered expanded
        omega

theorem collapseAll (frontier : Frontier registry definition routine branches draft) :
    ∃ branches draft, Frontier registry definition routine.collapseAll branches draft :=
  (frontier.repeat_collapse routine.maxDepth).1

theorem collapseAll_maxDepth (frontier : Frontier registry definition routine branches draft) :
    routine.collapseAll.maxDepth = 0 := by
  have depth := (frontier.repeat_collapse routine.maxDepth).2
  rw [Nat.sub_self] at depth
  exact Nat.le_zero.mp depth

theorem instructions_of_flat (frontier : Frontier registry definition routine branches draft)
    (flat : routine.maxDepth = 0) : routine.instructions = definition.body := by
  rw [frontier.instructions, ← frontier.map_instruction]
  apply Derivation.flatMap_code_leaves
  intro tree inTrees
  obtain ⟨branch, member, rfl⟩ := List.mem_map.mp inTrees
  cases frontier.held branch member with
  | leaf found => simp [Derivation.instruction]
  | @node id origin children present linked inner =>
      obtain ⟨leaf, inLeaves⟩ := List.exists_mem_of_ne_nil _
        (frontier.spread.full _ member).leaves_ne_nil
      obtain ⟨child, inChildren, inChild⟩ := List.mem_flatMap.mp (Branch.leaves_node _ _ _ ▸ inLeaves)
      obtain ⟨ordinal, place⟩ := List.mem_iff_getElem?.mp inChildren
      obtain ⟨bottom, found⟩ := (inner child inChildren).get?_leaf leaf inChild
      have deep := (inner child inChildren).depth_le_leaf (linked place) inChild found
      have shallow := Routine.depth_le_maxDepth (frontier.leaf_mem member inLeaves) found
      simp only [Node.child] at deep
      omega

theorem vars_of_flat (frontier : Frontier registry definition routine branches draft)
    (flat : routine.maxDepth = 0) : routine.vars = definition.vars := by
  have inUse : routine.varsInUse = definition.vars := by
    rw [Routine.varsInUse, frontier.sourceVars, frontier.instructions_of_flat flat]
    apply Std.ExtTreeSet.ext_mem
    intro name
    simp only [Definition.vars, Std.ExtTreeSet.mem_insertMany_list, Std.ExtTreeSet.mem_ofList,
      List.contains_iff_mem, List.mem_cons]
    tauto
  rcases frontier.vars with current | restored
  · rw [current, inUse]
  · rw [restored, frontier.sourceVars]

theorem labels_of_flat (frontier : Frontier registry definition routine branches draft)
    (flat : routine.maxDepth = 0) :
    routine.state.labels = (Routine.ofDefinition definition).state.labels := by
  have source := Frontier.ofDefinition registry definition
  rw [frontier.labels, source.labels, Routine.labelPositions, Routine.labelPositions,
    Routine.instructions_ofDefinition, frontier.instructions_of_flat flat]

end Frontier

namespace Routine

theorem maxDepth_ofDefinition (definition : Definition) : (ofDefinition definition).maxDepth = 0 := by
  refine Nat.le_zero.mp (maxDepth_le.mpr ?_)
  intro node member
  obtain ⟨id, inSequence, found⟩ := mem_nodes.mp member
  have root := (Frontier.ofDefinition ∅ definition).roots
    (List.getElem?_eq_getElem (List.mem_range.mp inSequence))
  rw [found] at root
  cases root
  exact Nat.le_refl _

theorem vars_ofDefinition (definition : Definition) :
    (ofDefinition definition).vars = definition.vars :=
  (Frontier.ofDefinition ∅ definition).vars_of_flat (maxDepth_ofDefinition definition)

end Routine

end CounterMachine
