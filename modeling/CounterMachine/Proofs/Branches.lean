import CounterMachine.Derivation.Tree
import Mathlib.Data.List.Flatten
import Mathlib.Data.List.Nodup
import Mathlib.Data.List.Perm.Basic
set_option autoImplicit false

/-!
# Branches of a forest

A branch is the part of a derivation forest that is alive: a source node or a derived one, with the nodes
that it is expanded into now. Nodes of earlier expansions stay in the forest but belong to no branch.
-/

namespace CounterMachine

/-! ## Order in a forest -/

namespace Forest

/-- Parents come before their children and are one level above them. -/
structure Ordered (forest : Forest) : Prop where
  root : ∀ {id node}, forest.get? id = some node → node.parent = none → node.depth = 0
  child : ∀ {id node parent}, forest.get? id = some node → node.parent = some parent →
    parent < id ∧ ∃ origin, forest.get? parent = some origin ∧ node.depth = origin.depth + 1

/-- Every node of a forest is in another at the same place. -/
def Within (forest larger : Forest) : Prop :=
  ∀ {id node}, forest.get? id = some node → larger.get? id = some node

variable {forest : Forest} {id : Nat} {node : Node}

theorem lt_size_of_get? (found : forest.get? id = some node) : id < forest.size := by
  exact (Array.getElem?_eq_some_iff.mp found).1

theorem get?_push (node : Node) :
    (forest.push node).get? id = if id = forest.size then some node else forest.get? id := by
  exact Array.getElem?_push

theorem get?_push_size (node : Node) : (forest.push node).get? forest.size = some node := by
  rw [get?_push, if_pos rfl]

theorem size_push (node : Node) : (forest.push node).size = forest.size + 1 := by
  simp [push, size]

theorem within_push (node : Node) : forest.Within (forest.push node) := by
  intro id other found
  rw [get?_push, if_neg (Nat.ne_of_lt (lt_size_of_get? found)), found]

theorem ancestors_root (found : forest.get? id = some node) (root : node.parent = none) :
    forest.ancestors id = [] := by
  rw [ancestors]
  simp [found, root]

theorem Ordered.ancestors_child (ordered : forest.Ordered) {parent : Nat}
    (found : forest.get? id = some node) (derived : node.parent = some parent) :
    forest.ancestors id = parent :: forest.ancestors parent := by
  rw [ancestors]
  simp [found, derived, (ordered.child found derived).1]

theorem Ordered.depth_eq (ordered : forest.Ordered) (found : forest.get? id = some node) :
    node.depth = (forest.ancestors id).length := by
  induction id using Nat.strongRecOn generalizing node with
  | ind id ih =>
      cases derived : node.parent with
      | none => rw [ordered.root found derived, ancestors_root found derived, List.length_nil]
      | some parent =>
          obtain ⟨below, origin, originFound, depth⟩ := ordered.child found derived
          rw [ordered.ancestors_child found derived, List.length_cons, ← ih parent below originFound,
            depth]

theorem Ordered.push_child (ordered : forest.Ordered) (found : forest.get? id = some node)
    (ordinal : Nat) (instruction : Instruction) :
    (forest.push (node.child id ordinal instruction)).Ordered := by
  constructor
  · intro other known present root
    rw [get?_push] at present
    split at present
    · cases present
      cases root
    · exact ordered.root present root
  · intro other known parent present derived
    rw [get?_push] at present
    split at present
    · next same =>
        cases present
        cases derived
        exact ⟨same ▸ lt_size_of_get? found, node, within_push _ found, rfl⟩
    · obtain ⟨below, origin, originFound, depth⟩ := ordered.child present derived
      exact ⟨below, origin, within_push _ originFound, depth⟩

theorem ordered_ofRoots (instructions : List Instruction) : (ofRoots instructions).Ordered := by
  have isRoot : ∀ {id node}, (ofRoots instructions).get? id = some node →
      node.parent = none ∧ node.depth = 0 := by
    intro id node found
    simp only [ofRoots, get?, List.getElem?_toArray, List.getElem?_map, Option.map_eq_some_iff] at found
    obtain ⟨pair, _, rfl⟩ := found
    exact ⟨rfl, rfl⟩
  constructor
  · exact fun found _ => (isRoot found).2
  · intro id node parent found derived
    rw [(isRoot found).1] at derived
    cases derived

theorem get?_ofRoots {instructions : List Instruction} {position : Nat} {instruction : Instruction}
    (found : instructions[position]? = some instruction) :
    (ofRoots instructions).get? position = some (.root position instruction) := by
  simp [ofRoots, get?, found]

end Forest

/-! ## Trees of instructions -/

namespace Derivation

def instruction : Derivation → Instruction
  | leaf instruction => instruction
  | node instruction _ => instruction

/-- The instructions at the leaves. -/
def code : Derivation → List Instruction
  | leaf instruction => [instruction]
  | node _ children => children.flatMap code

@[simp] theorem code_leaf (instruction : Instruction) : (leaf instruction).code = [instruction] := by
  rw [code]

@[simp] theorem code_node (instruction : Instruction) (children : List Derivation) :
    (node instruction children).code = children.flatMap code := by
  rw [code]

theorem flatMap_code_leaves {trees : List Derivation}
    (leaves : ∀ tree ∈ trees, tree.code = [tree.instruction]) :
    trees.flatMap code = trees.map instruction := by
  rw [List.map_eq_flatMap]
  exact List.flatMap_congr leaves

/-- Every inner node is followed by exactly the instructions that one round replaces it by. -/
inductive Unfolded (registry : Registry) : Derivation → Prop where
  | leaf (instruction : Instruction) : Unfolded registry (.leaf instruction)
  | node {instruction : Instruction} {children : List Derivation} {supply next : Supply}
      {body : List Instruction} (synthetic : instruction.isBasic = false)
      (expanded : instruction.operation.expansion registry supply = .ok (body, next))
      (complete : children.map Derivation.instruction = labelFirst instruction.label body)
      (inner : ∀ child ∈ children, child.Unfolded registry) :
      Unfolded registry (.node instruction children)

end Derivation

/-! ## Branches -/

/-- A node of a forest with the nodes that it is expanded into. -/
inductive Branch where
  | leaf (id : Nat) (instruction : Instruction)
  | node (id : Nat) (instruction : Instruction) (children : List Branch)

namespace Branch

def id : Branch → Nat
  | leaf id _ => id
  | node id _ _ => id

def instruction : Branch → Instruction
  | leaf _ instruction => instruction
  | node _ instruction _ => instruction

/-- The nodes that are to be executed, from left to right. -/
def leaves : Branch → List Nat
  | leaf id _ => [id]
  | node _ _ children => children.flatMap leaves

/-- All nodes. -/
def ids : Branch → List Nat
  | leaf id _ => [id]
  | node id _ children => id :: children.flatMap ids

/-- The nodes that are expanded. -/
def inner : Branch → List Nat
  | leaf _ _ => []
  | node id _ children => id :: children.flatMap inner

/-- All nodes but the first. -/
def inside : Branch → List Nat
  | leaf _ _ => []
  | node _ _ children => children.flatMap ids

/-- The tree of the instructions. -/
def derivation : Branch → Derivation
  | leaf _ instruction => .leaf instruction
  | node _ instruction children => .node instruction (children.map derivation)

section Equations

variable (id : Nat) (instruction : Instruction) (children : List Branch)

@[simp] theorem leaves_leaf : (leaf id instruction).leaves = [id] := by rw [leaves]

@[simp] theorem leaves_node : (node id instruction children).leaves = children.flatMap leaves := by
  rw [leaves]

@[simp] theorem ids_leaf : (leaf id instruction).ids = [id] := by rw [ids]

@[simp] theorem ids_node : (node id instruction children).ids = id :: children.flatMap ids := by
  rw [ids]

@[simp] theorem inner_leaf : (leaf id instruction).inner = [] := by rw [inner]

@[simp] theorem inner_node :
    (node id instruction children).inner = id :: children.flatMap inner := by
  rw [inner]

@[simp] theorem derivation_leaf : (leaf id instruction).derivation = .leaf instruction := by
  rw [derivation]

@[simp] theorem derivation_node :
    (node id instruction children).derivation = .node instruction (children.map derivation) := by
  rw [derivation]

end Equations

@[elab_as_elim]
theorem induction {motive : Branch → Prop}
    (leaf : ∀ id instruction, motive (.leaf id instruction))
    (node : ∀ id instruction children, (∀ child ∈ children, motive child) →
      motive (.node id instruction children)) : ∀ branch, motive branch
  | .leaf id instruction => leaf id instruction
  | .node id instruction children =>
      node id instruction children fun child _ => induction leaf node child

theorem ids_eq (branch : Branch) : branch.ids = branch.id :: branch.inside := by
  cases branch <;> simp [id, inside]

theorem instruction_derivation (branch : Branch) :
    branch.derivation.instruction = branch.instruction := by
  cases branch <;> simp [instruction, Derivation.instruction]

theorem leaves_sublist_ids (branch : Branch) : branch.leaves.Sublist branch.ids := by
  induction branch using induction with
  | leaf id instruction => simp
  | node id instruction children ih =>
      rw [leaves_node, ids_node]
      exact .cons _ (.flatMap_right children ih)

theorem leaves_subset_ids (branch : Branch) : branch.leaves ⊆ branch.ids :=
  branch.leaves_sublist_ids.subset

theorem ids_perm (branch : Branch) : branch.ids.Perm (branch.inner ++ branch.leaves) := by
  induction branch using induction with
  | leaf id instruction => simp
  | node id instruction children ih =>
      rw [ids_node, inner_node, leaves_node, List.cons_append]
      exact ((List.Perm.flatMap_left children ih).trans
        (List.flatMap_append_perm children inner leaves).symm).cons id

theorem flatMap_ids_perm (branches : List Branch) :
    (branches.flatMap ids).Perm (branches.flatMap inner ++ branches.flatMap leaves) :=
  (List.Perm.flatMap_left branches fun branch _ => branch.ids_perm).trans
    (List.flatMap_append_perm branches inner leaves).symm

/-- The nodes of a branch are in a forest, the children in the order of their ordinals. -/
inductive In (forest : Forest) : Branch → Prop where
  | leaf {id : Nat} {node : Node} (found : forest.get? id = some node) :
      In forest (.leaf id node.instruction)
  | node {id : Nat} {node : Node} {children : List Branch} (found : forest.get? id = some node)
      (linked : ∀ {ordinal child}, children[ordinal]? = some child →
        forest.get? child.id = some (node.child id ordinal child.instruction))
      (inner : ∀ child ∈ children, child.In forest) :
      In forest (.node id node.instruction children)

theorem In.within {forest larger : Forest} {branch : Branch} (held : branch.In forest)
    (within : forest.Within larger) : branch.In larger := by
  induction held with
  | leaf found => exact .leaf (within found)
  | node found linked _ ih => exact .node (within found) (fun at? => within (linked at?)) ih

theorem In.get?_id {forest : Forest} {branch : Branch} (held : branch.In forest) :
    ∃ node, forest.get? branch.id = some node ∧ node.instruction = branch.instruction := by
  cases held with
  | leaf found => exact ⟨_, found, rfl⟩
  | node found _ _ => exact ⟨_, found, rfl⟩

theorem In.lt_size {forest : Forest} {branch : Branch} (held : branch.In forest) :
    ∀ id ∈ branch.ids, id < forest.size := by
  induction held with
  | leaf found =>
      intro id member
      obtain rfl := List.mem_singleton.mp (ids_leaf _ _ ▸ member)
      exact Forest.lt_size_of_get? found
  | node found _ _ ih =>
      intro id member
      rw [ids_node, List.mem_cons, List.mem_flatMap] at member
      rcases member with rfl | ⟨child, inChildren, member⟩
      · exact Forest.lt_size_of_get? found
      · exact ih child inChildren id member

/-- The ancestors of a leaf are expanded nodes of its branch or ancestors of the whole branch. -/
theorem In.ancestors_leaf {forest : Forest} {branch : Branch} (held : branch.In forest)
    (ordered : forest.Ordered) {leaf ancestor : Nat} (member : leaf ∈ branch.leaves)
    (above : ancestor ∈ forest.ancestors leaf) :
    ancestor ∈ forest.ancestors branch.id ∨ ancestor ∈ branch.inner := by
  induction held with
  | leaf found =>
      obtain rfl := List.mem_singleton.mp (leaves_leaf _ _ ▸ member)
      exact .inl above
  | @node place origin children found linked _ ih =>
      rw [leaves_node, List.mem_flatMap] at member
      obtain ⟨child, inChildren, member⟩ := member
      obtain ⟨ordinal, at?⟩ := List.mem_iff_getElem?.mp inChildren
      rw [inner_node, List.mem_cons, List.mem_flatMap]
      rcases ih child inChildren member with outside | inside
      · rw [ordered.ancestors_child (linked at?) rfl, List.mem_cons] at outside
        rcases outside with rfl | outside
        · exact .inr (.inl rfl)
        · exact .inl outside
      · exact .inr (.inr ⟨child, inChildren, inside⟩)

theorem In.code_derivation {forest : Forest} {branch : Branch} (held : branch.In forest) :
    (branch.leaves.filterMap forest.get?).map Node.instruction = branch.derivation.code := by
  induction held with
  | leaf found => simp [found]
  | @node id node children found _ _ ih =>
      rw [leaves_node, derivation_node, Derivation.code_node, List.filterMap_flatMap, List.map_flatMap,
        List.flatMap_map]
      exact List.flatMap_congr ih

end Branch

end CounterMachine
