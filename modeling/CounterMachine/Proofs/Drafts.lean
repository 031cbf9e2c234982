import CounterMachine.Proofs.Cutting
import CounterMachine.Proofs.Growth
set_option autoImplicit false

/-!
# Drafts of trees

The names of a tree are those of its root and those that were drawn for its inner nodes. All drafts of some
trees, taken together in the order of the inner nodes, form one draft: cutting the trees leaves a part of it,
and extending them adds to it.
-/

namespace CounterMachine

/-- The names that were drawn for the inner nodes of some trees. Every inner node is followed by exactly the
instructions that one round of expansion replaced it by. -/
inductive Drawn (registry : Registry) : List Derivation → Draft → Prop where
  | nil : Drawn registry [] {}
  | leaf {instruction : Instruction} {rest : List Derivation} {draft : Draft}
      (others : Drawn registry rest draft) : Drawn registry (.leaf instruction :: rest) draft
  | node {instruction : Instruction} {children rest : List Derivation} {supply next : Supply}
      {body : List Instruction} {own draft : Draft} (synthetic : instruction.isBasic = false)
      (expanded : instruction.operation.expansion registry supply = .ok (body, next))
      (stands : instruction.operation.StandsFor registry own body)
      (complete : children.map Derivation.instruction = labelFirst instruction.label body)
      (others : Drawn registry (children ++ rest) draft) :
      Drawn registry (.node instruction children :: rest) (own.append draft)

namespace Drawn

variable {registry : Registry}

theorem append {first second : List Derivation} {earlier later : Draft}
    (left : Drawn registry first earlier) (right : Drawn registry second later) :
    Drawn registry (first ++ second) (earlier.append later) := by
  induction left with
  | nil => exact right
  | leaf _ ih => exact .leaf ih
  | node synthetic expanded stands complete _ ih =>
      rw [Draft.append_assoc]
      rw [List.append_assoc] at ih
      exact .node synthetic expanded stands complete ih

theorem leaves (registry : Registry) (code : List Instruction) :
    Drawn registry (code.map Derivation.leaf) {} := by
  induction code with
  | nil => exact .nil
  | cons instruction rest ih => exact .leaf ih

theorem split {first second : List Derivation} {draft : Draft}
    (drawn : Drawn registry (first ++ second) draft) :
    ∃ earlier later, draft = earlier.append later ∧ Drawn registry first earlier ∧
      Drawn registry second later := by
  generalize whole : first ++ second = trees at drawn
  induction drawn generalizing first with
  | nil =>
      obtain ⟨rfl, rfl⟩ := List.append_eq_nil_iff.mp whole
      exact ⟨{}, {}, rfl, .nil, .nil⟩
  | @leaf instruction rest draft others ih =>
      cases first with
      | nil =>
          obtain rfl : second = _ := whole
          exact ⟨{}, draft, rfl, .nil, .leaf others⟩
      | cons tree first =>
          obtain ⟨rfl, tail⟩ := List.cons_eq_cons.mp whole
          obtain ⟨earlier, later, rfl, left, right⟩ := ih tail
          exact ⟨earlier, later, rfl, .leaf left, right⟩
  | @node instruction children rest supply next body own draft synthetic expanded stands complete
      others ih =>
      cases first with
      | nil =>
          obtain rfl : second = _ := whole
          exact ⟨{}, own.append draft, rfl, .nil, .node synthetic expanded stands complete others⟩
      | cons tree first =>
          obtain ⟨rfl, rfl⟩ := List.cons_eq_cons.mp whole
          obtain ⟨earlier, later, rfl, left, right⟩ := ih (List.append_assoc children first second)
          exact ⟨own.append earlier, later, (Draft.append_assoc _ _ _).symm,
            .node synthetic expanded stands complete left, right⟩

theorem unfolded {trees : List Derivation} {draft : Draft} (drawn : Drawn registry trees draft) :
    ∀ tree ∈ trees, tree.Unfolded registry := by
  induction drawn with
  | nil => simp
  | leaf _ ih =>
      intro tree member
      rcases List.mem_cons.mp member with rfl | member
      · exact .leaf _
      · exact ih tree member
  | node synthetic expanded _ complete _ ih =>
      intro tree member
      rcases List.mem_cons.mp member with rfl | member
      · exact .node synthetic expanded complete fun child inChildren =>
          ih child (List.mem_append_left _ inChildren)
      · exact ih tree (List.mem_append_right _ member)

theorem names {trees : List Derivation} {draft : Draft} (drawn : Drawn registry trees draft)
    (wellFormed : registry.WellFormed) (named : ∀ label ∈ draft.labels, label.isNamed = true) :
    namesIn (trees.flatMap Derivation.code) =
      namesIn (trees.map Derivation.instruction) ∪ { name | name ∈ draft.names } := by
  induction drawn with
  | nil => simp [Draft.names]
  | leaf _ ih =>
      rw [List.flatMap_cons, List.map_cons, Derivation.code_leaf, List.singleton_append, namesIn_cons,
        namesIn_cons, ih named, Set.union_assoc]
      rfl
  | @node instruction children rest supply next body own draft _ _ stands complete _ ih =>
      have ownNamed : ∀ label ∈ own.labels, label.isNamed = true := fun label member =>
        named label (List.mem_append_left _ member)
      have inner := ih fun label member => named label (List.mem_append_right _ member)
      have unfolded := Instruction.names_unfolded stands wellFormed ownNamed
      rw [List.flatMap_append, List.map_append, complete, namesIn_append _ (rest.map _), unfolded] at inner
      rw [List.flatMap_cons, Derivation.code_node, inner, List.map_cons, namesIn_cons]
      ext name
      simp only [Derivation.instruction, Set.mem_union, Set.mem_ofPred_eq, Draft.mem_names_append]
      tauto

theorem cut (here : Nat → Bool) {branches : List Branch} {draft : Draft}
    (drawn : Drawn registry (branches.map Branch.derivation) draft) :
    ∃ part, Drawn registry ((branches.map (Branch.cut here)).map Branch.derivation) part ∧
      part.Within draft := by
  generalize whole : branches.map Branch.derivation = trees at drawn
  induction drawn generalizing branches with
  | nil =>
      obtain rfl := List.map_eq_nil_iff.mp whole
      exact ⟨{}, .nil, .refl _⟩
  | leaf _ ih =>
      obtain ⟨branch, rest, rfl, same, restSame⟩ := List.map_eq_cons_iff.mp whole
      obtain ⟨part, left, within⟩ := ih restSame
      cases branch with
      | leaf id instruction =>
          refine ⟨part, ?_, within⟩
          simpa using left.leaf
      | node id instruction children => simp at same
  | node synthetic expanded stands complete _ ih =>
      obtain ⟨branch, rest, rfl, same, rfl⟩ := List.map_eq_cons_iff.mp whole
      cases branch with
      | leaf id instruction => simp at same
      | node id instruction children =>
          rw [Branch.derivation_node, Derivation.node.injEq] at same
          obtain ⟨rfl, rfl⟩ := same
          obtain ⟨part, left, within⟩ := ih List.map_append
          rw [List.map_append, List.map_append] at left
          rw [List.map_cons, List.map_cons, Branch.cut_node]
          split
          · obtain ⟨lost, kept, rfl, _, right⟩ := left.split
            refine ⟨kept, ?_, ?_⟩
            · rw [Branch.derivation_leaf]
              exact .leaf right
            · refine Draft.Within.trans ?_ (within.trans (Draft.within_append_right _ _))
              exact Draft.within_append_right _ _
          · refine ⟨_, ?_, (Draft.Within.refl _).append within⟩
            rw [Branch.derivation_node]
            refine .node synthetic expanded stands ?_ left
            rw [← complete, List.map_map, List.map_map, List.map_map]
            apply List.map_congr_left
            intro child member
            simp [Branch.instruction_derivation]

/-- The draft of branches that were extended is made of their draft and the drafts of the tips. -/
theorem extend {tip : Nat → Branch} {forest larger : Forest} (within : forest.Within larger)
    {branches : List Branch} {draft new : Draft}
    (drawn : Drawn registry (branches.map Branch.derivation) draft)
    (held : ∀ branch ∈ branches, branch.In forest)
    (tips : ∀ branch ∈ branches, Branch.Tips tip larger branch)
    (fresh : Drawn registry ((branches.flatMap Branch.leaves).map fun id => (tip id).derivation) new) :
    ∃ total, Drawn registry ((branches.map (Branch.extend tip)).map Branch.derivation) total ∧
      total.Within (draft.append new) := by
  generalize whole : branches.map Branch.derivation = trees at drawn
  induction drawn generalizing branches new with
  | nil =>
      obtain rfl := List.map_eq_nil_iff.mp whole
      exact ⟨{}, .nil, List.nil_subperm, List.nil_subperm⟩
  | leaf _ ih =>
      obtain ⟨branch, rest, rfl, same, restSame⟩ := List.map_eq_cons_iff.mp whole
      cases branch with
      | node id instruction children => simp at same
      | leaf id instruction =>
          rw [List.flatMap_cons, Branch.leaves_leaf, List.map_append, List.map_singleton] at fresh
          obtain ⟨first, others, rfl, tipDrawn, restDrawn⟩ := fresh.split
          obtain ⟨total, extended, part⟩ := ih (fun other member => held other (by simp [member]))
            (fun other member => tips other (by simp [member])) restDrawn restSame
          refine ⟨first.append total, ?_, ?_⟩
          · rw [List.map_cons, List.map_cons, Branch.extend_leaf]
            exact tipDrawn.append extended
          · exact ((Draft.Within.refl first).append part).trans (Draft.within_append_left_comm _ _ _)
  | @node _ _ _ _ _ _ own _ synthetic expanded stands complete _ ih =>
      obtain ⟨branch, rest, rfl, same, rfl⟩ := List.map_eq_cons_iff.mp whole
      cases branch with
      | leaf id instruction => simp at same
      | node id instruction children =>
          rw [Branch.derivation_node, Derivation.node.injEq] at same
          obtain ⟨rfl, rfl⟩ := same
          have nodeTips := tips _ List.mem_cons_self
          have nodeHeld := held _ List.mem_cons_self
          have inner : ∀ child ∈ children, child.In forest := by
            cases nodeHeld with
            | node _ _ inner => exact inner
          obtain ⟨total, extended, part⟩ := @ih (children ++ rest) _
            (by
              intro child member
              rcases List.mem_append.mp member with member | member
              · exact inner child member
              · exact held child (by simp [member]))
            (by
              intro child member
              rcases List.mem_append.mp member with member | member
              · exact nodeTips.child member
              · exact tips child (by simp [member]))
            (by simpa using fresh) List.map_append
          refine ⟨own.append total, ?_, ?_⟩
          · rw [List.map_append, List.map_append] at extended
            rw [List.map_cons, List.map_cons, Branch.extend_node, Branch.derivation_node]
            refine .node synthetic expanded stands ?_ extended
            rw [← complete, List.map_map, List.map_map, List.map_map]
            apply List.map_congr_left
            intro child member
            simp only [Function.comp_apply, Branch.instruction_derivation]
            exact Branch.instruction_extend (inner child member) within (nodeTips.child member)
          · rw [Draft.append_assoc]
            exact (Draft.Within.refl own).append part

end Drawn

/-! ## Expansion of instructions -/

theorem Drawn.mapM {α : Type} {registry : Registry} {derive : α → Fresh Derivation}
    (instruction : α → Instruction)
    (one : ∀ {member supply tree next}, derive member supply = .ok (tree, next) →
      tree.instruction = instruction member ∧
        ∃ draft, Drawn registry [tree] draft ∧ supply.Draws draft next)
    {members : List α} {supply next : Supply} {trees : List Derivation}
    (derived : members.mapM derive supply = .ok (trees, next)) :
    trees.map Derivation.instruction = members.map instruction ∧
      ∃ draft, Drawn registry trees draft ∧ supply.Draws draft next := by
  induction members generalizing supply trees with
  | nil =>
      rw [List.mapM_nil] at derived
      obtain ⟨rfl, rfl⟩ := Fresh.pure_ok derived
      exact ⟨rfl, {}, .nil, .nothing supply⟩
  | cons member rest ih =>
      rw [List.mapM_cons] at derived
      obtain ⟨tree, middle, first, derived⟩ := Fresh.bind_ok derived
      obtain ⟨others, last, later, derived⟩ := Fresh.bind_ok derived
      obtain ⟨rfl, rfl⟩ := Fresh.pure_ok derived
      obtain ⟨same, draft, drawn, draws⟩ := one first
      obtain ⟨sames, drafts, drawns, drawsLater⟩ := ih later
      refine ⟨by rw [List.map_cons, List.map_cons, same, sames], draft.append drafts, ?_,
        draws.trans drawsLater⟩
      exact drawn.append drawns

/-- Expansion for some rounds yields a tree of the instruction, with names that are drawn for it. -/
theorem Instruction.derive_ok {registry : Registry} {rounds : Nat} {instruction : Instruction}
    {supply next : Supply} {tree : Derivation}
    (derived : instruction.derive registry rounds supply = .ok (tree, next)) :
    tree.instruction = instruction ∧
      ∃ draft, Drawn registry [tree] draft ∧ supply.Draws draft next := by
  induction rounds generalizing instruction supply tree next with
  | zero =>
      obtain ⟨rfl, rfl⟩ := Fresh.pure_ok derived
      exact ⟨rfl, {}, .leaf .nil, .nothing supply⟩
  | succ rounds ih =>
      rw [Instruction.derive] at derived
      cases basic : instruction.isBasic with
      | true =>
          rw [basic, if_pos rfl] at derived
          obtain ⟨rfl, rfl⟩ := Fresh.pure_ok derived
          exact ⟨rfl, {}, .leaf .nil, .nothing supply⟩
      | false =>
          rw [basic, if_neg Bool.false_ne_true] at derived
          obtain ⟨body, middle, expanded, derived⟩ := Fresh.bind_ok derived
          obtain ⟨children, last, childrenDerived, derived⟩ := Fresh.bind_ok derived
          obtain ⟨rfl, rfl⟩ := Fresh.pure_ok derived
          obtain ⟨own, stands, draws⟩ := Operation.expansion_ok basic expanded
          obtain ⟨complete, draft, drawn, drawsLater⟩ := 
            Drawn.mapM id (fun {_ _ _ _} done => ih done) childrenDerived
          rw [List.map_id] at complete
          refine ⟨rfl, own.append draft, ?_, draws.trans drawsLater⟩
          exact .node basic expanded stands complete (by rwa [List.append_nil])

namespace Instruction

variable {registry : Registry} {rounds : Nat} {instruction : Instruction} {supply next : Supply}
  {tree : Derivation}

theorem derive_grows (derived : instruction.derive registry rounds supply = .ok (tree, next)) :
    supply.taken ⊆ next.taken := by
  obtain ⟨_, draft, _, draws⟩ := derive_ok derived
  exact draws.taken_subset

theorem derive_basic (basic : instruction.isBasic = true) (rounds : Nat) :
    instruction.derive registry rounds = pure (.leaf instruction) := by
  cases rounds with
  | zero => rfl
  | succ rounds => rw [Instruction.derive, basic, if_pos rfl]

theorem derive_synthetic (synthetic : instruction.isBasic = false) (rounds : Nat) :
    instruction.derive registry (rounds + 1) = (do
      let body ← instruction.operation.expansion registry
      let children ← (labelFirst instruction.label body).mapM (derive registry rounds)
      return .node instruction children) := by
  rw [Instruction.derive, synthetic, if_neg Bool.false_ne_true]

end Instruction

end CounterMachine
