import CounterMachine.Proofs.Acceptance
import CounterMachine.Proofs.Alive
set_option autoImplicit false

/-!
# Ownership of names

A node that is rewritten owns the names that were drawn for its block. No instruction loses a name when it is
rewritten, so the current instructions mention every name of a living node, and names that are drawn later
differ from all of them. Hence a living node mentions only names of its source instruction and names that
nodes above it own.
-/

namespace CounterMachine

/-! ## Drafts of single nodes -/

/-- The drafts of different nodes are different parts of one draft. -/
def Draft.Shares (drafts : Nat → Draft) (whole : Draft) : Prop :=
  ∀ {id other}, id ≠ other → ((drafts id).append (drafts other)).Within whole

namespace Draft

variable {drafts : Nat → Draft} {whole first second : Draft} {used : Set Name}

theorem within_append_left (first second : Draft) : first.Within (first.append second) :=
  ⟨(List.sublist_append_left _ _).subperm, (List.sublist_append_left _ _).subperm⟩

theorem within_append_comm (first second : Draft) :
    (first.append second).Within (second.append first) :=
  ⟨List.perm_append_comm.subperm, List.perm_append_comm.subperm⟩

theorem Shares.within (shares : Shares drafts whole) (id : Nat) : (drafts id).Within whole :=
  (within_append_left _ _).trans (shares (Nat.ne_of_lt id.lt_succ_self))

theorem Shares.avoids (shares : Shares drafts whole) (avoids : whole.Avoids used) (id : Nat) :
    (drafts id).Avoids used :=
  avoids.within (shares.within id)

theorem Shares.disjoint (shares : Shares drafts whole) (avoids : whole.Avoids used) {id other : Nat}
    (different : id ≠ other) {name : Name} (owned : name ∈ (drafts id).names) :
    name ∉ (drafts other).names := by
  intro alsoOwned
  obtain ⟨_, later⟩ := (avoids.within (shares different)).split
  exact later.unused name alsoOwned (.inr owned)

/-- One more node gets a draft of its own. -/
theorem Shares.update (shares : Shares drafts whole) (id : Nat) (own : Draft) :
    Shares (Function.update drafts id own) (own.append whole) := by
  intro left right different
  by_cases atLeft : left = id
  · subst atLeft
    rw [Function.update_self, Function.update_of_ne different.symm]
    exact (Within.refl own).append (shares.within right)
  · rw [Function.update_of_ne atLeft]
    by_cases atRight : right = id
    · subst atRight
      rw [Function.update_self]
      exact (within_append_comm _ _).trans ((Within.refl own).append (shares.within left))
    · rw [Function.update_of_ne atRight]
      exact (shares different).trans (within_append_right own whole)

end Draft

namespace Branch

/-- Every expanded node of a branch is followed by the block that it stands for, with the names of its own
draft. -/
inductive Owns (registry : Registry) (drafts : Nat → Draft) : Branch → Prop where
  | leaf (id : Nat) (instruction : Instruction) : Owns registry drafts (.leaf id instruction)
  | node {id : Nat} {instruction : Instruction} {children : List Branch} {body : List Instruction}
      (stands : instruction.operation.StandsFor registry (drafts id) body)
      (complete : children.map Branch.instruction = labelFirst instruction.label body)
      (inner : ∀ child ∈ children, child.Owns registry drafts) :
      Owns registry drafts (.node id instruction children)

variable {registry : Registry} {drafts : Nat → Draft} {branch : Branch}

theorem Owns.congr {other : Nat → Draft} (owns : branch.Owns registry drafts)
    (same : ∀ id ∈ branch.inner, other id = drafts id) : branch.Owns registry other := by
  induction owns with
  | leaf id instruction => exact .leaf id instruction
  | @node id instruction children body stands complete _ ih =>
      rw [inner_node] at same
      refine .node ?_ complete fun child member => ?_
      · rw [same id List.mem_cons_self]
        exact stands
      · exact ih child member fun other inside =>
          same other (List.mem_cons_of_mem _ (List.mem_flatMap_of_mem member inside))

theorem Owns.update (owns : branch.Owns registry drafts) {id : Nat} (outside : id ∉ branch.inner)
    (own : Draft) : branch.Owns registry (Function.update drafts id own) := by
  refine owns.congr fun other inside => Function.update_of_ne ?_ own drafts
  rintro rfl
  exact outside inside

end Branch

/-- The draft of some branches is shared by their expanded nodes. -/
theorem Drawn.owned {registry : Registry} {branches : List Branch} {draft : Draft}
    (drawn : Drawn registry (branches.map Branch.derivation) draft)
    (distinct : (branches.flatMap Branch.inner).Nodup) :
    ∃ drafts : Nat → Draft, (∀ branch ∈ branches, branch.Owns registry drafts) ∧
      Draft.Shares drafts draft := by
  generalize whole : branches.map Branch.derivation = trees at drawn
  -- The induction follows the list of trees: the children of an expanded node stand before the rest.
  induction drawn generalizing branches with
  | nil =>
      obtain rfl := List.map_eq_nil_iff.mp whole
      exact ⟨fun _ => {}, by simp, fun _ => .refl _⟩
  | leaf _ ih =>
      obtain ⟨branch, rest, rfl, same, restSame⟩ := List.map_eq_cons_iff.mp whole
      cases branch with
      | node id instruction children => simp at same
      | leaf id instruction =>
          rw [List.flatMap_cons, Branch.inner_leaf, List.nil_append] at distinct
          obtain ⟨drafts, owns, shares⟩ := ih distinct restSame
          refine ⟨drafts, ?_, shares⟩
          intro branch member
          rcases List.mem_cons.mp member with rfl | member
          · exact .leaf id instruction
          · exact owns branch member
  | @node _ _ _ _ _ body own draft _ _ stands complete _ ih =>
      obtain ⟨branch, rest, rfl, same, rfl⟩ := List.map_eq_cons_iff.mp whole
      cases branch with
      | leaf id instruction => simp at same
      | node id instruction children =>
          rw [Branch.derivation_node, Derivation.node.injEq] at same
          obtain ⟨rfl, rfl⟩ := same
          rw [List.flatMap_cons, Branch.inner_node, List.cons_append, ← List.flatMap_append,
            List.nodup_cons] at distinct
          obtain ⟨drafts, owns, shares⟩ := ih distinct.2 List.map_append
          have others : ∀ branch ∈ children ++ rest,
              branch.Owns registry (Function.update drafts id own) := fun branch member =>
            (owns branch member).update (fun inside => distinct.1 (List.mem_flatMap_of_mem member inside)) own
          refine ⟨Function.update drafts id own, ?_, shares.update id own⟩
          intro branch member
          rcases List.mem_cons.mp member with rfl | member
          · have standsHere :
                instruction.operation.StandsFor registry (Function.update drafts id own id) body := by
              rw [Function.update_self]
              exact stands
            refine .node standsHere ?_ fun child inChildren =>
              others child (List.mem_append_left _ inChildren)
            rw [← complete, List.map_map]
            exact List.map_congr_left fun child _ => (child.instruction_derivation).symm
          · exact others branch (List.mem_append_right _ member)

/-! ## Names of living nodes -/

namespace Branch

variable {registry : Registry} {drafts : Nat → Draft} {branch : Branch} {forest : Forest}

/-- A node below the first node of a branch is an instruction of the block of its parent. -/
theorem Owns.origin (owns : branch.Owns registry drafts) (held : branch.In forest) {id : Nat}
    {node : Node} (member : id ∈ branch.inside) (found : forest.get? id = some node) :
    ∃ origin parent body, node.parent = some origin ∧ forest.get? origin = some parent ∧
      parent.instruction.operation.StandsFor registry (drafts origin) body ∧
      node.instruction ∈ labelFirst parent.instruction.label body := by
  induction held with
  | leaf _ => simp [inside] at member
  | @node place origin children originFound linked _ ih =>
      cases owns with
      | node stands complete inner =>
          rw [inside, List.mem_flatMap] at member
          obtain ⟨child, inChildren, member⟩ := member
          rw [ids_eq, List.mem_cons] at member
          rcases member with rfl | member
          · obtain ⟨ordinal, here⟩ := List.mem_iff_getElem?.mp inChildren
            have same := linked here
            rw [found] at same
            cases same
            refine ⟨place, origin, _, rfl, originFound, stands, ?_⟩
            rw [← complete]
            exact List.mem_map_of_mem inChildren
          · exact ih child inChildren (inner child inChildren) member

theorem Owns.names_children {id : Nat} {instruction : Instruction} {children : List Branch}
    (owns : (Branch.node id instruction children).Owns registry drafts)
    (wellFormed : registry.WellFormed)
    (named : ∀ id, ∀ label ∈ (drafts id).labels, label.isNamed = true) :
    namesIn (children.map Branch.instruction) =
      { name | name ∈ instruction.names } ∪ { name | name ∈ (drafts id).names } := by
  cases owns with
  | node stands complete _ =>
      rw [complete]
      exact Instruction.names_unfolded stands wellFormed (named id)

/-- The leaves of a branch mention all names of its nodes. -/
theorem Owns.names_visible (owns : branch.Owns registry drafts) (held : branch.In forest)
    (wellFormed : registry.WellFormed)
    (named : ∀ id, ∀ label ∈ (drafts id).labels, label.isNamed = true) {id : Nat} {node : Node}
    (member : id ∈ branch.ids) (found : forest.get? id = some node) {name : Name}
    (occurs : name ∈ node.instruction.names) : name ∈ namesIn branch.derivation.code := by
  induction held generalizing id node with
  | @leaf place origin originFound =>
      rw [ids_leaf, List.mem_singleton] at member
      subst member
      obtain rfl : origin = node := Option.some.inj (originFound.symm.trans found)
      simpa using occurs
  | @node place origin children originFound linked held ih =>
      rw [derivation_node, Derivation.code_node, List.flatMap_map]
      -- What a child's code mentions, the code of all children mentions.
      have visible : ∀ child ∈ children, name ∈ namesIn child.derivation.code →
          name ∈ namesIn (children.flatMap fun child => child.derivation.code) := by
        intro child inChildren mentioned
        obtain ⟨instruction, inCode, here⟩ := mentioned
        exact ⟨instruction, List.mem_flatMap_of_mem inChildren inCode, here⟩
      have inner : ∀ child ∈ children, child.Owns registry drafts := by
        cases owns with
        | node _ _ inner => exact inner
      rw [ids_node, List.mem_cons, List.mem_flatMap] at member
      rcases member with rfl | ⟨child, inChildren, member⟩
      · obtain rfl : origin = node := Option.some.inj (originFound.symm.trans found)
        have kept : name ∈ namesIn (children.map Branch.instruction) := by
          rw [owns.names_children wellFormed named]
          exact .inl occurs
        obtain ⟨instruction, inBlock, here⟩ := kept
        obtain ⟨child, inChildren, rfl⟩ := List.mem_map.mp inBlock
        obtain ⟨first, firstFound, same⟩ := (held child inChildren).get?_id
        exact visible child inChildren
          (ih child inChildren (inner child inChildren) child.id_mem_ids firstFound (same ▸ here))
      · exact visible child inChildren (ih child inChildren (inner child inChildren) member found occurs)

/-- A node mentions names of the first instruction of its branch and names that nodes above it own. -/
theorem Owns.names_inherited (owns : branch.Owns registry drafts) (held : branch.In forest)
    (ordered : forest.Ordered) (wellFormed : registry.WellFormed)
    (named : ∀ id, ∀ label ∈ (drafts id).labels, label.isNamed = true) {id : Nat} {node : Node}
    (member : id ∈ branch.ids) (found : forest.get? id = some node) {name : Name}
    (occurs : name ∈ node.instruction.names) :
    name ∈ branch.instruction.names ∨
      ∃ origin ∈ forest.ancestors id, name ∈ (drafts origin).names := by
  induction held generalizing id node with
  | @leaf place origin originFound =>
      rw [ids_leaf, List.mem_singleton] at member
      subst member
      obtain rfl : origin = node := Option.some.inj (originFound.symm.trans found)
      exact .inl occurs
  | @node place origin children originFound linked held ih =>
      have inner : ∀ child ∈ children, child.Owns registry drafts := by
        cases owns with
        | node _ _ inner => exact inner
      rw [ids_node, List.mem_cons, List.mem_flatMap] at member
      rcases member with rfl | ⟨child, inChildren, member⟩
      · obtain rfl : origin = node := Option.some.inj (originFound.symm.trans found)
        exact .inl occurs
      · obtain ⟨ordinal, here⟩ := List.mem_iff_getElem?.mp inChildren
        have below : place ∈ forest.ancestors id := by
          have parent : place ∈ forest.ancestors child.id := by
            rw [ordered.ancestors_child (linked here) rfl]
            exact List.mem_cons_self
          rcases (held child inChildren).above ordered member with rfl | above
          · exact parent
          · exact Forest.mem_ancestors_trans parent above
        rcases ih child inChildren (inner child inChildren) member found occurs with first | above
        · have inBlock : name ∈ namesIn (children.map Branch.instruction) :=
            ⟨child.instruction, List.mem_map_of_mem inChildren, first⟩
          rw [owns.names_children wellFormed named] at inBlock
          rcases inBlock with kept | owned
          · exact .inl kept
          · exact .inr ⟨place, below, owned⟩
        · exact .inr above

end Branch

namespace Routine

/-- The names of the living nodes. -/
def aliveNames (routine : Routine) : Set Name :=
  { name | ∃ id node, routine.Alive id ∧ routine.forest.get? id = some node ∧
    name ∈ node.instruction.names }

/-- A living child of a node mentions a name that the node itself does not mention. -/
def Introduces (routine : Routine) (origin : Nat) (name : Name) : Prop :=
  ∃ id node parent, routine.Alive id ∧ routine.forest.get? id = some node ∧
    node.parent = some origin ∧ routine.forest.get? origin = some parent ∧
    name ∈ node.instruction.names ∧ name ∉ parent.instruction.names

/-- Expansion keeps the nodes that are there. Each node that it adds is an instruction of the block of its
parent, with the names that were drawn for the parent. -/
structure Rewritten (registry : Registry) (drafts : Nat → Draft) (before after : Routine) : Prop where
  kept : before.forest.Within after.forest
  added : ∀ {id node}, after.forest.get? id = some node → before.forest.size ≤ id →
    ∃ origin parent body, node.parent = some origin ∧ after.forest.get? origin = some parent ∧
      parent.instruction.operation.StandsFor registry (drafts origin) body ∧
      node.instruction ∈ labelFirst parent.instruction.label body

end Routine

namespace Frontier

variable {registry : Registry} {definition : Definition} {routine next : Routine}
  {branches : List Branch} {draft : Draft}

theorem alive (frontier : Frontier registry definition routine branches draft) {id : Nat}
    (alive : routine.Alive id) : ∃ branch ∈ branches, id ∈ branch.ids := by
  obtain ⟨leaf, member, above⟩ := alive
  rw [frontier.sequence, List.mem_flatMap] at member
  obtain ⟨branch, inBranches, member⟩ := member
  refine ⟨branch, inBranches, ?_⟩
  rcases above with rfl | above
  · exact branch.leaves_subset_ids member
  · rw [branch.ids_perm.mem_iff, List.mem_append]
    obtain ⟨position, instruction, _, _, root⟩ := frontier.root_of_mem inBranches
    rcases (frontier.held branch inBranches).ancestors_leaf frontier.ordered member above with
      outside | inner
    · rw [Forest.ancestors_root root rfl] at outside
      cases outside
    · exact .inl inner

/-- The expanded nodes of a routine share the names that were drawn. -/
theorem owned (frontier : Frontier registry definition routine branches draft) :
    ∃ drafts : Nat → Draft, (∀ branch ∈ branches, branch.Owns registry drafts) ∧
      Draft.Shares drafts draft := by
  have distinct := frontier.distinct
  rw [(Branch.flatMap_ids_perm branches).nodup_iff, List.nodup_append] at distinct
  exact frontier.drawn.owned distinct.1

theorem aliveNames_subset (frontier : Frontier registry definition routine branches draft)
    (wellFormed : registry.WellFormed) : routine.aliveNames ⊆ namesIn routine.instructions := by
  intro name alive
  obtain ⟨id, node, alive, found, occurs⟩ := alive
  obtain ⟨branch, inBranches, member⟩ := frontier.alive alive
  obtain ⟨drafts, owns, shares⟩ := frontier.owned
  have visible := (owns branch inBranches).names_visible (frontier.held branch inBranches) wellFormed
    (fun id => (shares.avoids (frontier.avoids wellFormed) id).named) member found occurs
  obtain ⟨instruction, inCode, here⟩ := visible
  rw [frontier.instructions]
  exact ⟨instruction, List.mem_flatMap_of_mem (List.mem_map_of_mem inBranches) inCode, here⟩

/-- Only living nodes below a node mention the names that it introduces. -/
theorem below_origin (frontier : Frontier registry definition routine branches draft)
    (wellFormed : registry.WellFormed) {origin : Nat} {name : Name}
    (introduces : routine.Introduces origin name) :
    name ∉ namesIn definition.body ∧ ∀ id node, routine.Alive id →
      routine.forest.get? id = some node → name ∈ node.instruction.names →
      origin ∈ routine.forest.ancestors id := by
  obtain ⟨child, node, parent, alive, found, derived, parentFound, occurs, absent⟩ := introduces
  obtain ⟨drafts, owns, shares⟩ := frontier.owned
  have avoids := frontier.avoids wellFormed
  have named := fun id => (shares.avoids avoids id).named
  have owned : name ∈ (drafts origin).names := by
    obtain ⟨branch, inBranches, member⟩ := frontier.alive alive
    obtain ⟨position, instruction, _, _, root⟩ := frontier.root_of_mem inBranches
    rw [branch.ids_eq, List.mem_cons] at member
    rcases member with rfl | member
    · rw [root] at found
      cases found
      cases derived
    · obtain ⟨other, otherParent, body, sameOrigin, otherFound, stands, inBlock⟩ :=
        (owns branch inBranches).origin (frontier.held branch inBranches) member found
      obtain rfl : origin = other := Option.some.inj (derived.symm.trans sameOrigin)
      obtain rfl : parent = otherParent := Option.some.inj (parentFound.symm.trans otherFound)
      have mentioned : name ∈ namesIn (labelFirst parent.instruction.label body) :=
        ⟨node.instruction, inBlock, occurs⟩
      rw [Instruction.names_unfolded stands wellFormed (named origin)] at mentioned
      exact mentioned.resolve_left absent
  have unused : name ∉ namesIn definition.body := (shares.avoids avoids origin).unused name owned
  refine ⟨unused, ?_⟩
  intro id other alive found occurs
  obtain ⟨branch, inBranches, member⟩ := frontier.alive alive
  rcases (owns branch inBranches).names_inherited (frontier.held branch inBranches) frontier.ordered
    wellFormed named member found occurs with source | ⟨above, isAbove, alsoOwned⟩
  · refine (unused ?_).elim
    rw [← frontier.map_instruction, List.map_map]
    refine ⟨branch.instruction, ?_, source⟩
    rw [← branch.instruction_derivation]
    exact List.mem_map_of_mem inBranches
  · -- Two different nodes do not own the same name.
    by_cases same : origin = above
    · exact same ▸ isAbove
    · exact (shares.disjoint avoids same owned alsoOwned).elim

/-- Expansion draws names that no living node and no source variable has, different ones for different
nodes. -/
theorem rewritten (frontier : Frontier registry definition routine branches draft)
    (wellFormed : registry.WellFormed) {rounds : Nat} {selected : Nat → Bool}
    (expanded : routine.expandSelected registry rounds selected = .ok next) :
    ∃ drafts : Nat → Draft, routine.Rewritten registry drafts next ∧
      (∀ origin, (drafts origin).Avoids
        (routine.aliveNames ∪ { name | ∃ var ∈ definition.vars, name = .var var })) ∧
      ∀ origin other, origin ≠ other → ∀ name ∈ (drafts origin).names, name ∉ (drafts other).names := by
  obtain ⟨news, supply, new, grown, _, drawn, draws⟩ :=
    Routine.expandSelected_grown frontier.ordered frontier.present expanded
  have distinct := grown.distinct frontier.sequence_nodup
  rw [(Branch.flatMap_ids_perm news).nodup_iff, List.nodup_append] at distinct
  obtain ⟨drafts, owns, shares⟩ := drawn.owned distinct.1
  refine ⟨drafts, ⟨grown.within, ?_⟩, ?_, ?_⟩
  · intro id node found later
    obtain ⟨branch, inNews, member⟩ :=
      List.mem_flatMap.mp (grown.complete id later (Forest.lt_size_of_get? found))
    exact (owns branch inNews).origin (grown.held branch inNews) member found
  · intro origin
    refine (shares.avoids draws.avoids origin).mono fun name _ used => ?_
    rcases used with alive | ⟨var, inSource, rfl⟩
    · exact routine.taken_supply (frontier.aliveNames_subset wellFormed alive)
    · rw [Supply.var_mem_taken]
      change var ∈ routine.sourceVars.insertMany _
      rw [Std.ExtTreeSet.mem_insertMany_list, frontier.sourceVars]
      exact .inl inSource
  · exact fun origin other different name owned => shares.disjoint draws.avoids different owned

end Frontier

/-- Expansion captures no name. Whatever was done to the main routine of an accepted source, the labels and
work variables that the next expansion draws, of all instructions or of one, are names of no living node and
no source variables, and those of different nodes are different. Therefore a name that a node introduces is
no name of the source, and of the living nodes only those below mention it: whatever collapse brings back,
nothing else has taken its names. -/
theorem Program.expansion_captures_nothing (source : Source) (accepted : source.violations = []) :
    ∃ program, Program.load source = .ok program ∧ ∀ actions : List Action,
      let main := program.main.after program.functions actions
      (∀ next, (∃ rounds, main.expand program.functions rounds = .ok next ∨
          ∃ key, main.expandSingle program.functions key rounds = .ok next) →
        ∃ drafts : Nat → Draft, main.Rewritten program.functions drafts next ∧
          (∀ origin, (drafts origin).Avoids
            (main.aliveNames ∪ { name | ∃ var ∈ source.program.vars, name = .var var })) ∧
          ∀ origin other, origin ≠ other →
            ∀ name ∈ (drafts origin).names, name ∉ (drafts other).names) ∧
      (∀ origin name, main.Introduces origin name →
        name ∉ namesIn source.program.body ∧ ∀ id node, main.Alive id →
          main.forest.get? id = some node → name ∈ node.instruction.names →
          origin ∈ main.forest.ancestors id) ∧
      (∀ id ∈ main.collapse.sequence, main.Alive id) ∧
      ∀ key next, main.collapseSingle key = .ok next → ∀ id ∈ next.sequence, main.Alive id := by
  obtain ⟨program, loaded, sourceMain, wellFormed, _, _⟩ := Program.load_wellFormed accepted
  refine ⟨program, loaded, ?_⟩
  intro actions main
  obtain ⟨branches, draft, frontier⟩ :=
    (Frontier.ofDefinition program.functions source.program).after actions
  rw [← sourceMain] at frontier
  refine ⟨?_, fun origin name => frontier.below_origin wellFormed, ?_, ?_⟩
  · intro next expanded
    obtain ⟨rounds, expanded | ⟨key, expanded⟩⟩ := expanded
    · exact frontier.rewritten wellFormed expanded
    · obtain ⟨position, _, expanded⟩ := Routine.expandSingle_ok expanded
      exact frontier.rewritten wellFormed expanded
  · exact fun id member =>
      Routine.alive_of_collapse frontier.ordered (Routine.alive_of_mem member)
  · exact fun key next collapsed id member =>
      Routine.alive_of_collapseSingle collapsed (Routine.alive_of_mem member)

/-- The routine was expanded twice, collapsed once, and counts its names anew; the next round draws names for
instructions that once more stand for others. -/
theorem Program.sample_expansion_captures_nothing :
    sampleSource.violations = [] ∧ ∃ program, Program.load sampleSource = .ok program ∧
      let main := program.main.after program.functions [.expand 2, .collapse, .reset, .restoreVars]
      ∃ next, main.expand program.functions 1 = .ok next ∧
        ∃ drafts : Nat → Draft, main.Rewritten program.functions drafts next ∧
          (∀ origin, (drafts origin).Avoids
            (main.aliveNames ∪ { name | ∃ var ∈ sampleSource.program.vars, name = .var var })) ∧
          ∀ origin other, origin ≠ other →
            ∀ name ∈ (drafts origin).names, name ∉ (drafts other).names := by
  refine ⟨sampleSource_accepted, ?_⟩
  obtain ⟨program, loaded, captures⟩ :=
    Program.expansion_captures_nothing sampleSource sampleSource_accepted
  have succeeds : (Program.load sampleSource).toOption.all (fun program =>
      ((program.main.after program.functions [.expand 2, .collapse, .reset, .restoreVars]).expand
        program.functions 1).isOk) = true := by
    decide +kernel
  rw [loaded] at succeeds
  simp only [Except.toOption, Option.all_some] at succeeds
  refine ⟨program, loaded, ?_⟩
  cases expanded : (program.main.after program.functions
      [.expand 2, .collapse, .reset, .restoreVars]).expand program.functions 1 with
  | error failure =>
      rw [expanded] at succeeds
      cases succeeds
  | ok next => exact ⟨next, expanded, (captures _).1 next ⟨1, .inl expanded⟩⟩

end CounterMachine
