import CounterMachine.Proofs.Branches
import Mathlib.Data.List.Perm.Basic
set_option autoImplicit false

/-!
# Growth

Grafting a derivation tree adds a branch with new nodes to a forest. Expansion grafts trees below the leaves
of the branches that are there, so every branch is extended at its leaves.
-/

namespace CounterMachine

namespace Growth

/-- A forest has grown by some new nodes, and some branches have been put into the sequence. -/
structure Grows (before after : Growth) (branches : List Branch) (new : List Nat) : Prop where
  ordered : after.forest.Ordered
  within : before.forest.Within after.forest
  size : before.forest.size ≤ after.forest.size
  sequence : after.sequence.toList = before.sequence.toList ++ branches.flatMap Branch.leaves
  held : ∀ branch ∈ branches, branch.In after.forest
  fresh : ∀ id ∈ new, before.forest.size ≤ id ∧ id < after.forest.size
  distinct : new.Nodup

theorem Grows.refl {growth : Growth} (ordered : growth.forest.Ordered) :
    growth.Grows growth [] [] where
  ordered
  within := fun found => found
  size := Nat.le_refl _
  sequence := by simp
  held := by simp
  fresh := by simp
  distinct := List.nodup_nil

theorem Grows.trans {before middle after : Growth} {left right : List Branch}
    {earlier later : List Nat} (first : before.Grows middle left earlier)
    (second : middle.Grows after right later) :
    before.Grows after (left ++ right) (earlier ++ later) where
  ordered := second.ordered
  within := fun found => second.within (first.within found)
  size := Nat.le_trans first.size second.size
  sequence := by
    rw [second.sequence, first.sequence, List.flatMap_append, List.append_assoc]
  held := by
    intro branch member
    rcases List.mem_append.mp member with member | member
    · exact (first.held branch member).within second.within
    · exact second.held branch member
  fresh := by
    intro id member
    rcases List.mem_append.mp member with member | member
    · exact ⟨(first.fresh id member).1, Nat.lt_of_lt_of_le (first.fresh id member).2 second.size⟩
    · exact ⟨Nat.le_trans first.size (second.fresh id member).1, (second.fresh id member).2⟩
  distinct := by
    refine first.distinct.append second.distinct ?_
    intro id inEarlier inLater
    exact Nat.lt_irrefl id
      (Nat.lt_of_lt_of_le (first.fresh id inEarlier).2 (second.fresh id inLater).1)

mutual

/-- A grafted tree is a branch below the node that it is grafted to. -/
theorem graft_grows : (tree : Derivation) → (growth : Growth) → (id : Nat) → (parent : Node) →
    (ordinal : Nat) → growth.forest.Ordered → growth.forest.get? id = some parent →
    ∃ branch, branch.derivation = tree ∧
      growth.Grows (growth.graft id parent ordinal tree) [branch] branch.ids ∧
      (growth.graft id parent ordinal tree).forest.get? branch.id =
        some (parent.child id ordinal branch.instruction)
  | .leaf instruction, growth, id, parent, ordinal, ordered, found => by
      rw [graft]
      refine ⟨.leaf growth.forest.size instruction, by simp, ?_, Forest.get?_push_size _⟩
      exact {
        ordered := ordered.push_child found ordinal instruction
        within := Forest.within_push _
        size := by rw [Forest.size_push]; exact Nat.le_succ _
        sequence := by simp
        held := by
          intro branch member
          obtain rfl := List.mem_singleton.mp member
          exact .leaf (Forest.get?_push_size (parent.child id ordinal instruction))
        fresh := by simp [Forest.size_push]
        distinct := by simp }
  | .node instruction children, growth, id, parent, ordinal, ordered, found => by
      rw [graft]
      -- The children are grafted to the node that has just been pushed.
      have placed : (growth.forest.push (parent.child id ordinal instruction)).get? growth.forest.size =
          some (parent.child id ordinal instruction) := Forest.get?_push_size _
      obtain ⟨branches, derivations, grows, linked⟩ :=
        graftAll_grows children
          { growth with forest := growth.forest.push (parent.child id ordinal instruction) }
          growth.forest.size (parent.child id ordinal instruction) 0
          (ordered.push_child found ordinal instruction) placed
      refine ⟨.node growth.forest.size instruction branches, by simp [derivations], ?_,
        grows.within placed⟩
      exact {
        ordered := grows.ordered
        within := fun present => grows.within (Forest.within_push _ present)
        size := by
          refine Nat.le_trans ?_ grows.size
          rw [Forest.size_push]
          exact Nat.le_succ _
        sequence := by simpa using grows.sequence
        held := by
          intro branch member
          obtain rfl := List.mem_singleton.mp member
          refine .node (grows.within placed) ?_ grows.held
          intro place child present
          simpa using linked present
        fresh := by
          intro place member
          rw [Branch.ids_node, List.mem_cons] at member
          have size := grows.size
          rw [Forest.size_push] at size
          rcases member with rfl | member
          · exact ⟨Nat.le_refl _, size⟩
          · have bounds := grows.fresh place member
            rw [Forest.size_push] at bounds
            exact ⟨Nat.le_of_succ_le bounds.1, bounds.2⟩
        distinct := by
          rw [Branch.ids_node, List.nodup_cons]
          refine ⟨?_, grows.distinct⟩
          intro member
          have bounds := (grows.fresh _ member).1
          rw [Forest.size_push] at bounds
          exact Nat.not_succ_le_self _ bounds }

theorem graftAll_grows : (trees : List Derivation) → (growth : Growth) → (id : Nat) →
    (parent : Node) → (ordinal : Nat) → growth.forest.Ordered →
    growth.forest.get? id = some parent →
    ∃ branches, branches.map Branch.derivation = trees ∧
      growth.Grows (growth.graftAll id parent ordinal trees) branches
        (branches.flatMap Branch.ids) ∧
      ∀ {place branch}, branches[place]? = some branch →
        (growth.graftAll id parent ordinal trees).forest.get? branch.id =
          some (parent.child id (ordinal + place) branch.instruction)
  | [], growth, id, parent, ordinal, ordered, found => by
      rw [graftAll]
      exact ⟨[], rfl, .refl ordered, by simp⟩
  | tree :: rest, growth, id, parent, ordinal, ordered, found => by
      rw [graftAll]
      obtain ⟨branch, derivation, grows, linked⟩ :=
        graft_grows tree growth id parent ordinal ordered found
      obtain ⟨branches, derivations, restGrows, restLinked⟩ :=
        graftAll_grows rest (growth.graft id parent ordinal tree) id parent (ordinal + 1)
          grows.ordered (grows.within found)
      refine ⟨branch :: branches, by simp [derivation, derivations], ?_, ?_⟩
      · simpa using grows.trans restGrows
      · intro place other present
        cases place with
        | zero =>
            obtain rfl : branch = other := by simpa using present
            exact restGrows.within linked
        | succ place =>
            have later : branches[place]? = some other := by simpa using present
            rw [restLinked later, Nat.add_right_comm, Nat.add_assoc]

end

theorem replace_grows {growth : Growth} {id : Nat} {node : Node} {tree : Derivation}
    (ordered : growth.forest.Ordered) (found : growth.forest.get? id = some node)
    (same : tree.instruction = node.instruction) :
    ∃ branch, branch.id = id ∧ branch.derivation = tree ∧
      growth.Grows (growth.replace id node tree) [branch] branch.inside := by
  cases tree with
  | leaf instruction =>
      cases same
      refine ⟨.leaf id node.instruction, rfl, by simp, ?_⟩
      exact {
        ordered
        within := fun present => present
        size := Nat.le_refl _
        sequence := by simp [replace]
        held := by
          intro branch member
          obtain rfl := List.mem_singleton.mp member
          exact .leaf found
        fresh := by simp [Branch.inside]
        distinct := by simp [Branch.inside] }
  | node instruction children =>
      cases same
      obtain ⟨branches, derivations, grows, linked⟩ :=
        graftAll_grows children growth id node 0 ordered found
      refine ⟨.node id node.instruction branches, rfl, by simp [derivations], ?_⟩
      exact {
        ordered := grows.ordered
        within := grows.within
        size := grows.size
        sequence := by simpa [replace] using grows.sequence
        held := by
          intro branch member
          obtain rfl := List.mem_singleton.mp member
          refine .node (grows.within found) ?_ grows.held
          intro place child present
          simpa [replace] using linked present
        fresh := grows.fresh
        distinct := grows.distinct }

theorem replaceAll_grows {places : List ((Nat × Node) × Derivation)} {growth : Growth}
    (ordered : growth.forest.Ordered)
    (found : ∀ place ∈ places, growth.forest.get? place.1.1 = some place.1.2)
    (same : ∀ place ∈ places, place.2.instruction = place.1.2.instruction) :
    ∃ branches, branches.map Branch.id = places.map (fun place => place.1.1) ∧
      branches.map Branch.derivation = places.map Prod.snd ∧
      growth.Grows
        (places.foldl (fun growth place => growth.replace place.1.1 place.1.2 place.2) growth)
        branches (branches.flatMap Branch.inside) := by
  induction places generalizing growth with
  | nil => exact ⟨[], rfl, rfl, .refl ordered⟩
  | cons place rest ih =>
      obtain ⟨branch, id, derivation, grows⟩ := replace_grows ordered (found place (by simp))
        (same place (by simp))
      obtain ⟨branches, ids, derivations, restGrows⟩ := ih grows.ordered
        (fun other member => grows.within (found other (by simp [member])))
        (fun other member => same other (by simp [member]))
      refine ⟨branch :: branches, by simp [id, ids], by simp [derivation, derivations], ?_⟩
      simpa using grows.trans restGrows

end Growth

/-! ## Extension of branches -/

namespace Branch

/-- Puts a branch in the place of every leaf. -/
def extend (tip : Nat → Branch) : Branch → Branch
  | leaf id _ => tip id
  | node id instruction children => .node id instruction (children.map (extend tip))

variable {tip : Nat → Branch}

@[simp] theorem extend_leaf (id : Nat) (instruction : Instruction) :
    (leaf id instruction).extend tip = tip id := by
  rw [extend]

@[simp] theorem extend_node (id : Nat) (instruction : Instruction) (children : List Branch) :
    (node id instruction children).extend tip =
      .node id instruction (children.map (extend tip)) := by
  rw [extend]

theorem leaves_extend (branch : Branch) :
    (branch.extend tip).leaves = branch.leaves.flatMap fun id => (tip id).leaves := by
  induction branch using induction with
  | leaf id instruction => simp
  | node id instruction children ih =>
      rw [extend_node, leaves_node, leaves_node, List.flatMap_map, List.flatMap_assoc]
      exact List.flatMap_congr ih

theorem ids_extend_all {branches : List Branch}
    (each : ∀ branch ∈ branches, (branch.extend tip).ids.Perm
      (branch.ids ++ branch.leaves.flatMap fun id => (tip id).inside)) :
    ((branches.map (extend tip)).flatMap ids).Perm
      (branches.flatMap ids ++ (branches.flatMap leaves).flatMap fun id => (tip id).inside) := by
  rw [List.flatMap_map, List.flatMap_assoc]
  exact (List.Perm.flatMap_left branches each).trans (List.flatMap_append_perm _ _ _).symm

theorem ids_extend (branch : Branch) (placed : ∀ id ∈ branch.leaves, (tip id).id = id) :
    (branch.extend tip).ids.Perm
      (branch.ids ++ branch.leaves.flatMap fun id => (tip id).inside) := by
  induction branch using induction with
  | leaf id instruction =>
      have here : (tip id).id = id := placed id (by simp)
      simp [ids_eq (tip id), here]
  | node id instruction children ih =>
      rw [extend_node, ids_node, ids_node, leaves_node, List.cons_append]
      refine (ids_extend_all fun child member => ih child member ?_).cons id
      intro leaf inChild
      apply placed
      rw [leaves_node]
      exact List.mem_flatMap_of_mem member inChild

/-- The tips at the leaves of a branch are branches of the same nodes. -/
def Tips (tip : Nat → Branch) (forest : Forest) (branch : Branch) : Prop :=
  ∀ id ∈ branch.leaves, (tip id).id = id ∧ (tip id).In forest

theorem Tips.child {forest : Forest} {id : Nat} {instruction : Instruction} {children : List Branch}
    (tips : Tips tip forest (node id instruction children)) {child : Branch}
    (member : child ∈ children) : Tips tip forest child := by
  intro leaf inChild
  apply tips
  rw [leaves_node]
  exact List.mem_flatMap_of_mem member inChild

theorem id_extend {forest : Forest} {branch : Branch} (tips : Tips tip forest branch) :
    (branch.extend tip).id = branch.id := by
  cases branch with
  | leaf place instruction =>
      rw [extend_leaf]
      exact (tips place (by simp)).1
  | node place instruction children =>
      rw [extend_node]
      rfl

theorem instruction_extend {forest larger : Forest} {branch : Branch} (held : branch.In forest)
    (within : forest.Within larger) (tips : Tips tip larger branch) :
    (branch.extend tip).instruction = branch.instruction := by
  cases held with
  | @leaf place node found =>
      obtain ⟨here, tipHeld⟩ := tips place (by simp)
      obtain ⟨known, tipFound, same⟩ := tipHeld.get?_id
      rw [here, within found] at tipFound
      cases tipFound
      rw [extend_leaf, ← same]
      rfl
  | node found _ _ =>
      rw [extend_node]
      rfl

theorem In.extend {forest larger : Forest} {branch : Branch} (held : branch.In forest)
    (within : forest.Within larger) (tips : Tips tip larger branch) :
    (branch.extend tip).In larger := by
  induction held with
  | @leaf place node found =>
      rw [extend_leaf]
      exact (tips place (by simp)).2
  | node found linked inner ih =>
      rw [extend_node]
      refine .node (within found) ?_ ?_
      · intro ordinal child present
        rw [List.getElem?_map, Option.map_eq_some_iff] at present
        obtain ⟨original, present, rfl⟩ := present
        have member := List.mem_of_getElem? present
        rw [id_extend (tips.child member), instruction_extend (inner _ member) within (tips.child member)]
        exact within (linked present)
      · intro child extended
        obtain ⟨original, member, rfl⟩ := List.mem_map.mp extended
        exact ih original member (tips.child member)

end Branch

end CounterMachine
