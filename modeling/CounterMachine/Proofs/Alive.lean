import CounterMachine.Proofs.Histories
import Mathlib.Algebra.GroupWithZero.Nat
import Mathlib.Data.List.Pairwise
set_option autoImplicit false

/-!
# Living nodes

A node is alive if it is in the sequence of a routine, or if a node of the sequence was derived from it. The
other nodes of the forest are left over from expansions that were undone. Collapse brings back living nodes
only. All nodes that an expansion adds are alive, each of them below a node of the old sequence.
-/

namespace CounterMachine

namespace Forest

variable {forest : Forest} {id upper middle lower : Nat}

/-- The lower node is the upper one or was derived from it. -/
def Above (forest : Forest) (upper lower : Nat) : Prop :=
  upper = lower ∨ upper ∈ forest.ancestors lower

theorem lt_of_mem_ancestors (member : upper ∈ forest.ancestors lower) : upper < lower := by
  fun_induction Forest.ancestors forest lower with
  | case1 => cases member
  | case2 lower parent _ below ih =>
      rcases List.mem_cons.mp member with rfl | further
      · exact below
      · exact Nat.lt_trans (ih further) below
  | case3 => cases member

theorem mem_ancestors_trans (first : upper ∈ forest.ancestors middle)
    (second : middle ∈ forest.ancestors lower) : upper ∈ forest.ancestors lower := by
  fun_induction Forest.ancestors forest lower with
  | case1 => cases second
  | case2 lower parent _ _ ih =>
      rcases List.mem_cons.mp second with rfl | further
      · exact List.mem_cons_of_mem _ first
      · exact List.mem_cons_of_mem _ (ih further)
  | case3 => cases second

theorem get?_of_mem_ancestors {node : Node} (found : forest.get? lower = some node)
    (member : upper ∈ forest.ancestors lower) : ∃ origin, forest.get? upper = some origin :=
  ⟨_, Array.getElem?_eq_getElem (Nat.lt_trans (lt_of_mem_ancestors member) (lt_size_of_get? found))⟩

theorem Above.trans (first : forest.Above upper middle) (second : forest.Above middle lower) :
    forest.Above upper lower := by
  rcases first with rfl | first
  · exact second
  · rcases second with rfl | second
    · exact .inr first
    · exact .inr (mem_ancestors_trans first second)

theorem Ordered.depth_lt (ordered : forest.Ordered) {first second : Node}
    (above : upper ∈ forest.ancestors lower) (upperFound : forest.get? upper = some first)
    (lowerFound : forest.get? lower = some second) : first.depth < second.depth := by
  rw [ordered.depth_eq upperFound, ordered.depth_eq lowerFound]
  clear upperFound lowerFound
  fun_induction Forest.ancestors forest lower with
  | case1 => cases above
  | case2 lower parent _ _ ih =>
      rw [List.length_cons]
      rcases List.mem_cons.mp above with rfl | further
      · exact Nat.lt_succ_self _
      · exact Nat.lt_succ_of_lt (ih further)
  | case3 => cases above

/-- A node keeps its ancestors when the forest grows. -/
theorem Ordered.ancestors_within {larger : Forest} (ordered : forest.Ordered)
    (within : forest.Within larger) {node : Node} (found : forest.get? id = some node) :
    larger.ancestors id = forest.ancestors id := by
  induction id using Nat.strongRecOn generalizing node with
  | ind id ih =>
      rw [Forest.ancestors, Forest.ancestors, within found, found]
      cases derived : node.parent with
      | none => simp [derived]
      | some parent =>
          obtain ⟨below, origin, originFound, _⟩ := ordered.child found derived
          simp [derived, below, ih parent below originFound]

end Forest

/-! ## Branches -/

namespace Branch

variable {forest : Forest} {branch : Branch}

theorem id_mem_ids (branch : Branch) : branch.id ∈ branch.ids := by
  rw [ids_eq]
  exact List.mem_cons_self

theorem In.above (held : branch.In forest) (ordered : forest.Ordered) {id : Nat}
    (member : id ∈ branch.ids) : forest.Above branch.id id := by
  induction held with
  | leaf found =>
      rw [ids_leaf, List.mem_singleton] at member
      exact .inl member.symm
  | @node place node children found linked _ ih =>
      rw [ids_node, List.mem_cons, List.mem_flatMap] at member
      rcases member with rfl | ⟨child, inChildren, member⟩
      · exact .inl rfl
      · obtain ⟨ordinal, here⟩ := List.mem_iff_getElem?.mp inChildren
        have below : forest.Above place child.id := by
          refine .inr ?_
          rw [ordered.ancestors_child (linked here) rfl]
          exact List.mem_cons_self
        exact below.trans (ih child inChildren member)

/-- Of branches without a common node, no two different ones share a node. -/
theorem eq_of_mem_ids {branches : List Branch} (distinct : (branches.flatMap ids).Nodup)
    {left right : Branch} (inLeft : left ∈ branches) (inRight : right ∈ branches) {id : Nat}
    (atLeft : id ∈ left.ids) (atRight : id ∈ right.ids) : left = right := by
  by_contra different
  have symmetric : Std.Symm (Function.onFun List.Disjoint ids) :=
    ⟨fun _ _ apart _ left right => apart right left⟩
  exact (List.nodup_flatMap.mp distinct).2.forall inLeft inRight different atLeft atRight

end Branch

/-! ## Nodes that are added -/

namespace Derivation

/-- How many nodes a tree has below its root. -/
def descendants : Derivation → Nat
  | leaf _ => 0
  | node _ children => (children.map fun child => child.descendants + 1).sum

@[simp] theorem descendants_leaf (instruction : Instruction) : (leaf instruction).descendants = 0 := by
  rw [descendants]

@[simp] theorem descendants_node (instruction : Instruction) (children : List Derivation) :
    (node instruction children).descendants = (children.map fun child => child.descendants + 1).sum := by
  rw [descendants]

end Derivation

theorem Branch.length_inside (branch : Branch) : branch.inside.length = branch.derivation.descendants := by
  induction branch using Branch.induction with
  | leaf id instruction => simp [inside]
  | node id instruction children ih =>
      rw [inside, List.length_flatMap, derivation_node, Derivation.descendants_node, List.map_map]
      congr 1
      apply List.map_congr_left
      intro child member
      rw [ids_eq, List.length_cons, ih child member, Function.comp_apply]

namespace Growth

mutual

theorem size_graft : (tree : Derivation) → (growth : Growth) → (id : Nat) → (parent : Node) →
    (ordinal : Nat) →
    (growth.graft id parent ordinal tree).forest.size = growth.forest.size + (tree.descendants + 1)
  | .leaf instruction, growth, id, parent, ordinal => by
      rw [graft, Forest.size_push, Derivation.descendants_leaf]
  | .node instruction children, growth, id, parent, ordinal => by
      rw [graft, size_graftAll children, Forest.size_push, Derivation.descendants_node]
      omega

theorem size_graftAll : (trees : List Derivation) → (growth : Growth) → (id : Nat) →
    (parent : Node) → (ordinal : Nat) →
    (growth.graftAll id parent ordinal trees).forest.size =
      growth.forest.size + (trees.map fun tree => tree.descendants + 1).sum
  | [], growth, id, parent, ordinal => by
      rw [graftAll, List.map_nil, List.sum_nil, Nat.add_zero]
  | tree :: rest, growth, id, parent, ordinal => by
      rw [graftAll, size_graftAll rest, size_graft tree, List.map_cons, List.sum_cons]
      omega

end

theorem size_replace (growth : Growth) (id : Nat) (node : Node) (tree : Derivation) :
    (growth.replace id node tree).forest.size = growth.forest.size + tree.descendants := by
  cases tree with
  | leaf instruction => rw [replace, Derivation.descendants_leaf, Nat.add_zero]
  | node instruction children => rw [replace, size_graftAll, Derivation.descendants_node]

theorem size_replaceAll (places : List ((Nat × Node) × Derivation)) (growth : Growth) :
    (places.foldl (fun growth place => growth.replace place.1.1 place.1.2 place.2)
      growth).forest.size =
      growth.forest.size + (places.map fun place => place.2.descendants).sum := by
  induction places generalizing growth with
  | nil => simp
  | cons place rest ih =>
      rw [List.foldl_cons, ih, size_replace, List.map_cons, List.sum_cons]
      omega

/-- If a forest has grown by as many nodes as are listed, every node it has grown by is listed. -/
theorem Grows.mem_new {before after : Growth} {branches : List Branch} {new : List Nat}
    (grows : before.Grows after branches new)
    (count : after.forest.size = before.forest.size + new.length) {id : Nat}
    (later : before.forest.size ≤ id) (present : id < after.forest.size) : id ∈ new := by
  have included : new ⊆ List.range' before.forest.size new.length := by
    intro other member
    obtain ⟨lower, upper⟩ := grows.fresh other member
    exact List.mem_range'_1.mpr ⟨lower, count ▸ upper⟩
  have perm := (List.subperm_of_subset grows.distinct included).perm_of_length_le
    (by rw [List.length_range'])
  rw [perm.mem_iff, List.mem_range'_1]
  exact ⟨later, count ▸ present⟩

/-- Branches of different old nodes have no node in common. -/
theorem Grows.nodup_ids {before after : Growth} {news : List Branch}
    (grows : before.Grows after news (news.flatMap Branch.inside))
    (old : ∀ id ∈ news.map Branch.id, id < before.forest.size)
    (distinct : (news.map Branch.id).Nodup) : (news.flatMap Branch.ids).Nodup := by
  have perm := List.map_append_flatMap_perm news Branch.id Branch.inside
  simp only [← Branch.ids_eq] at perm
  rw [← perm.nodup_iff]
  refine distinct.append grows.distinct fun id first later => ?_
  exact Nat.lt_irrefl id (Nat.lt_of_lt_of_le (old id first) (grows.fresh id later).1)

end Growth

namespace Routine

variable {registry : Registry} {routine next : Routine} {id : Nat}

/-- Every node of a sequence has given way to the leaves of a branch that starts at it. What the branches have
below these nodes is all that the forest has grown by. -/
structure Grown (routine next : Routine) (news : List Branch) : Prop where
  ids : news.map Branch.id = routine.sequence
  ordered : next.forest.Ordered
  within : routine.forest.Within next.forest
  held : ∀ branch ∈ news, branch.In next.forest
  sequence : next.sequence = news.flatMap Branch.leaves
  fresh : ∀ id ∈ news.flatMap Branch.inside, routine.forest.size ≤ id
  complete : ∀ id, routine.forest.size ≤ id → id < next.forest.size → id ∈ news.flatMap Branch.inside
  distinct : routine.sequence.Nodup → (news.flatMap Branch.ids).Nodup

theorem Grown.old {news : List Branch} (grown : routine.Grown next news) {branch : Branch}
    (member : branch ∈ news) : branch.id ∈ routine.sequence :=
  grown.ids ▸ List.mem_map_of_mem member

/-- A successful expansion draws names and grows branches, which have the trees of the instructions. -/
theorem expandSelected_grown (ordered : routine.forest.Ordered)
    (present : ∀ id ∈ routine.sequence, ∃ node, routine.forest.get? id = some node) {rounds : Nat}
    {selected : Nat → Bool} (expanded : routine.expandSelected registry rounds selected = .ok next) :
    ∃ (news : List Branch) (supply : Supply) (new : Draft), routine.Grown next news ∧
      routine.derivations registry rounds selected routine.supply =
        .ok (news.map Branch.derivation, supply) ∧
      Drawn registry (news.map Branch.derivation) new ∧ routine.supply.Draws new supply := by
  obtain ⟨trees, supply, growth, derived, ⟨new, drawn, draws⟩, instructions, grown, rfl⟩ :=
    expandSelected_ok expanded
  obtain ⟨news, ids, derivations, grows⟩ := grafted ordered present instructions grown
  have lengths : trees.length ≤ (routine.sequence.zip routine.nodes).length := by
    have nodes := congrArg List.length (map_some_filterMap present)
    have same := congrArg List.length instructions
    simp only [List.length_map, Routine.instructions, Routine.nodes] at nodes same
    simp only [List.length_zip, Routine.nodes]
    omega
  have count : growth.forest.size = routine.forest.size + (news.flatMap Branch.inside).length := by
    rw [grown, Growth.size_replaceAll, List.length_flatMap]
    congr 1
    calc (((routine.sequence.zip routine.nodes).zip trees).map fun place => place.2.descendants).sum
      _ = (trees.map Derivation.descendants).sum := by
          conv_rhs => rw [← List.map_snd_zip lengths, List.map_map]
          rfl
      _ = (news.map fun branch => branch.inside.length).sum := by
          rw [← derivations, List.map_map]
          congr 1
          exact List.map_congr_left fun branch _ => branch.length_inside.symm
  refine ⟨news, supply, new, ?_, derivations ▸ derived, derivations ▸ drawn, draws⟩
  exact {
    ids
    ordered := grows.ordered
    within := grows.within
    held := grows.held
    sequence := grows.sequence
    fresh := fun id member => (grows.fresh id member).1
    complete := fun id later below => grows.mem_new count later below
    distinct := by
      intro distinct
      refine grows.nodup_ids ?_ (ids ▸ distinct)
      rw [ids]
      intro id member
      obtain ⟨node, found⟩ := present id member
      exact Forest.lt_size_of_get? found }

/-! ## Life -/

/-- A node of the sequence, or a node that a node of the sequence was derived from. -/
def Alive (routine : Routine) (id : Nat) : Prop :=
  ∃ leaf ∈ routine.sequence, routine.forest.Above id leaf

theorem alive_of_mem (member : id ∈ routine.sequence) : routine.Alive id :=
  ⟨id, member, .inl rfl⟩

theorem Alive.above {upper : Nat} (alive : routine.Alive id) (above : routine.forest.Above upper id) :
    routine.Alive upper := by
  obtain ⟨leaf, member, below⟩ := alive
  exact ⟨leaf, member, above.trans below⟩

theorem SameCode.alive (same : routine.SameCode next) (alive : next.Alive id) : routine.Alive id := by
  obtain ⟨leaf, member, above⟩ := alive
  exact ⟨leaf, same.sequence ▸ member, same.forest ▸ above⟩

/-- Members of a sequence that give way to nodes above them leave no other node alive. -/
theorem alive_of_replaceTogether {replacement : Nat → Option Nat}
    (above : ∀ id parent, replacement id = some parent → routine.forest.Above parent id)
    (alive : (refresh { routine with
      sequence := replaceTogether replacement routine.sequence [] }).Alive id) :
    routine.Alive id := by
  obtain ⟨leaf, member, below⟩ := alive
  rcases mem_replaceTogether.mp member with ⟨kept, _⟩ | ⟨_, other, inSequence, replaced⟩
  · exact ⟨leaf, kept, below⟩
  · exact ⟨other, inSequence, below.trans (above other leaf replaced)⟩

theorem above_of_descends {parent other : Nat}
    (replaced : (if routine.forest.descends id parent then some parent else none) = some other) :
    other = parent ∧ parent ∈ routine.forest.ancestors id := by
  split at replaced
  · next descends => exact ⟨(Option.some.inj replaced).symm, List.contains_iff_mem.mp descends⟩
  · cases replaced

theorem alive_of_collapse (ordered : routine.forest.Ordered) (alive : routine.collapse.Alive id) :
    routine.Alive id := by
  unfold Routine.collapse at alive
  dsimp only at alive
  split at alive
  · exact alive
  · exact alive_of_replaceTogether
      (fun _ _ replaced => .inr (parentAtDepth?_some ordered replaced).1) alive

/-- What a successful collapse of one parent does. -/
theorem collapseSingle_ok {key : String} (collapsed : routine.collapseSingle key = .ok next) :
    next = routine ∨ ∃ (leaf parent : Nat) (node : Node), leaf ∈ routine.sequence ∧
      routine.forest.get? leaf = some node ∧ node.parent = some parent ∧
      next = refresh { routine with
        sequence := replaceTogether
          (fun id => if routine.forest.descends id parent then some parent else none)
          routine.sequence [] } := by
  unfold Routine.collapseSingle at collapsed
  split at collapsed
  · cases collapsed
  · next position _ =>
      split at collapsed
      · cases collapsed
        exact .inl rfl
      · next parent derived =>
          cases collapsed
          obtain ⟨node, found, derived⟩ := Option.bind_eq_some_iff.mp derived
          obtain ⟨leaf, here, found⟩ := Option.bind_eq_some_iff.mp found
          exact .inr ⟨leaf, parent, node, List.mem_of_getElem? here, found, derived, rfl⟩

theorem alive_of_collapseSingle {key : String} (collapsed : routine.collapseSingle key = .ok next)
    (alive : next.Alive id) : routine.Alive id := by
  rcases collapseSingle_ok collapsed with rfl | ⟨_, parent, _, _, _, _, rfl⟩
  · exact alive
  · refine alive_of_replaceTogether (fun other upper replaced => ?_) alive
    obtain ⟨rfl, above⟩ := above_of_descends replaced
    exact .inr above

end Routine

end CounterMachine
