import CounterMachine.Proofs.Confluence
import CounterMachine.Proofs.Ownership
import CounterMachine.Proofs.Parts
set_option autoImplicit false

/-!
# Jumps to EXIT

A block jumps to `EXIT` only if the instruction that it stands for does, so a program ends by a jump only in
what was derived from its own jumps to `EXIT`. The jumps to `EXIT` of a function lead to the last instruction
of its copy: they take a label that stays attached to the first instruction derived from that one.
-/

namespace CounterMachine

open Inlining

/-! ## First leaves -/

namespace Branch

variable {registry : Registry} {drafts : Nat → Draft} {forest : Forest} {branch part : Branch}

theorem Part.owns (within : part.Part branch) (owns : branch.Owns registry drafts) :
    part.Owns registry drafts := by
  induction within with
  | whole => exact owns
  | child member _ ih =>
      cases owns with
      | node _ _ inner => exact ih (inner _ member)

/-- The label of the first node of a branch is attached to its first leaf. -/
theorem Owns.first_leaf (owns : branch.Owns registry drafts) (held : branch.In forest) :
    ∃ leaf rest node, branch.leaves = leaf :: rest ∧ forest.get? leaf = some node ∧
      node.instruction.label = branch.instruction.label := by
  induction held with
  | @leaf place node found => exact ⟨place, [], node, leaves_leaf _ _, found, rfl⟩
  | @node place origin children found linked held ih =>
      cases owns with
      | node stands complete inner =>
          obtain ⟨first, rest, rfl⟩ := stands.starts
          obtain ⟨child, others, rfl, same, _⟩ := List.map_eq_cons_iff.mp complete
          obtain ⟨leaf, later, node, leaves, leafFound, label⟩ :=
            ih child List.mem_cons_self (inner child List.mem_cons_self)
          refine ⟨leaf, later ++ others.flatMap Branch.leaves, node, ?_, leafFound, ?_⟩
          · rw [leaves_node, List.flatMap_cons, leaves, List.cons_append]
          · rw [label, same]
            rfl

end Branch

/-! ## Copies of functions -/

namespace Inlining.Frame

variable {frame : Frame} {callee : Routine} {original : Instruction}

/-- A jump to `EXIT` in a function leads to the last instruction of the copy. -/
theorem target_of_exit (fits : frame.Fits callee) (member : original ∈ callee.instructions)
    (jumps : original.target? = some .exit) :
    ∃ leave, frame.leave = some leave ∧ (frame.copyOf callee original).target? = some leave := by
  have present : frame.leave.isSome = true := by
    rw [fits.leave, jumpsToExit, List.any_eq_true]
    exact ⟨original, member, decide_eq_true jumps⟩
  obtain ⟨leave, there⟩ := Option.isSome_iff_exists.mp present
  refine ⟨leave, there, ?_⟩
  have jumps : original.operation.target? = some .exit := jumps
  rw [Instruction.target?, target?_copyOf, jumps, Option.map_some, renameLabel_of_not_named rfl, redirect,
    if_pos rfl, there, Option.getD_some]

theorem leave_mem_draft {leave : Label} (there : frame.leave = some leave) :
    leave ∈ frame.draft.labels := by
  rw [draft, there]
  exact List.mem_append_right _ List.mem_cons_self

theorem getLast?_block (label : Label) (subject : Variable) (arguments : List Argument) (use : Use) :
    (labelFirst label (frame.block subject callee arguments use)).getLast? =
      some (frame.tail subject use) := by
  rw [block, labelFirst, ← List.cons_append, List.getLast?_append, List.getLast?_singleton,
    Option.some_or]

end Inlining.Frame

/-- A block jumps to `EXIT` only if its operation does. -/
theorem Operation.StandsFor.exit_kept {registry : Registry} {operation : Operation} {draft : Draft}
    {body : List Instruction} (stands : operation.StandsFor registry draft body)
    (named : ∀ label ∈ draft.labels, label.isNamed = true) {instruction : Instruction} {label : Label}
    (member : instruction ∈ labelFirst label body) (jumps : instruction.target? = some .exit) :
    operation.target? = some .exit := by
  obtain ⟨original, inBody, same⟩ := exists_of_mem_labelFirst member
  have jumps : original.operation.target? = some .exit := same ▸ jumps
  rcases stands.target_origin named original inBody .exit jumps nofun with drawn | own
  · cases named .exit drawn
  · exact own

/-! ## Routines -/

namespace Frontier

variable {registry : Registry} {definition : Definition} {routine : Routine}
  {branches : List Branch} {draft : Draft}

/-- What jumps to `EXIT` was derived only from instructions that jump to `EXIT`. -/
theorem exit_inherited (frontier : Frontier registry definition routine branches draft)
    (wellFormed : registry.WellFormed) {id upper : Nat} {node origin : Node} (alive : routine.Alive id)
    (found : routine.forest.get? id = some node) (jumps : node.instruction.target? = some .exit)
    (above : routine.forest.Above upper id) (originFound : routine.forest.get? upper = some origin) :
    origin.instruction.target? = some .exit := by
  obtain ⟨drafts, owns, shares⟩ := frontier.owned
  have named := fun id => (shares.avoids (frontier.avoids wellFormed) id).named
  -- The induction climbs from the node to its parent.
  induction id using Nat.strongRecOn generalizing node with
  | ind id ih =>
      rcases above with rfl | above
      · obtain rfl : node = origin := Option.some.inj (found.symm.trans originFound)
        exact jumps
      · obtain ⟨branch, inBranches, member⟩ := frontier.alive alive
        rw [branch.ids_eq, List.mem_cons] at member
        rcases member with rfl | member
        · obtain ⟨position, instruction, _, _, root⟩ := frontier.root_of_mem inBranches
          rw [Forest.ancestors_root root rfl] at above
          cases above
        · obtain ⟨place, parent, body, derived, parentFound, stands, inBlock⟩ :=
            (owns branch inBranches).origin (frontier.held branch inBranches) member found
          have ancestors := frontier.ordered.ancestors_child found derived
          have higher : routine.forest.Above place id := .inr (ancestors ▸ List.mem_cons_self)
          refine ih place (frontier.ordered.child found derived).1 (alive.above higher) parentFound
            (stands.exit_kept (named place) inBlock jumps) ?_
          rw [ancestors, List.mem_cons] at above
          exact above

/-- Every living node was derived from a source instruction. -/
theorem exists_source (frontier : Frontier registry definition routine branches draft) {id : Nat}
    (alive : routine.Alive id) :
    ∃ origin instruction, definition.body[origin]? = some instruction ∧
      routine.forest.Above origin id := by
  obtain ⟨branch, inBranches, member⟩ := frontier.alive alive
  obtain ⟨position, instruction, found, same, _⟩ := frontier.root_of_mem inBranches
  refine ⟨position, instruction, found, ?_⟩
  rw [← same]
  exact (frontier.held branch inBranches).above frontier.ordered member

theorem alive_part (frontier : Frontier registry definition routine branches draft)
    {branch part : Branch} (inBranches : branch ∈ branches) (within : part.Part branch) :
    routine.Alive part.id := by
  obtain ⟨drafts, owns, _⟩ := frontier.owned
  have held := within.held (frontier.held branch inBranches)
  obtain ⟨leaf, rest, _, leaves, _, _⟩ := (within.owns (owns branch inBranches)).first_leaf held
  have member : leaf ∈ part.leaves := leaves ▸ List.mem_cons_self
  refine ⟨leaf, ?_, held.above frontier.ordered (part.leaves_subset_ids member)⟩
  exact frontier.leaf_mem inBranches (within.leaves_infix.subset member)

theorem above_iff {upper lower : Nat} :
    (lower = upper || routine.forest.descends lower upper) = true ↔
      routine.forest.Above upper lower := by
  rw [Bool.or_eq_true, decide_eq_true_iff, Forest.descends, List.contains_iff_mem]
  exact or_congr_left eq_comm

/-- The first node of the sequence below a node has the label of that node. -/
theorem first_below (frontier : Frontier registry definition routine branches draft)
    {branch part : Branch} (inBranches : branch ∈ branches) (within : part.Part branch) :
    ∃ position instruction,
      routine.sequence.findIdx? (fun id => id = part.id || routine.forest.descends id part.id) =
        some position ∧
      routine.instruction? position = some instruction ∧
      instruction.label = part.instruction.label := by
  obtain ⟨drafts, owns, _⟩ := frontier.owned
  have held := within.held (frontier.held branch inBranches)
  obtain ⟨leaf, rest, node, leaves, found, label⟩ :=
    (within.owns (owns branch inBranches)).first_leaf held
  obtain ⟨before, after, segment⟩ :=
    within.leaves_infix.trans (Branch.leaves_infix_flatMap inBranches)
  rw [← frontier.sequence, leaves] at segment
  have nodup := frontier.sequence_nodup
  have here : routine.sequence[before.length]? = some leaf := by
    rw [← segment]
    simp
  refine ⟨before.length, node.instruction, ?_, ?_, label⟩
  · rw [← segment, List.append_assoc, List.findIdx?_append]
    have outside : (before.findIdx? fun id =>
        id = part.id || routine.forest.descends id part.id) = none := by
      rw [List.findIdx?_eq_none_iff]
      intro id member
      rw [Bool.eq_false_iff]
      intro below
      have inPart := frontier.spread.mem_part_leaves inBranches within
        (segment ▸ List.mem_append_left _ (List.mem_append_left _ member)) (above_iff.mp below)
      rw [leaves] at inPart
      rw [← segment, List.append_assoc, List.nodup_append] at nodup
      exact nodup.2.2 id member id (List.mem_append_left _ inPart) rfl
    have below : (leaf = part.id || routine.forest.descends leaf part.id) = true :=
      above_iff.mpr (held.above frontier.ordered
        (part.leaves_subset_ids (leaves ▸ List.mem_cons_self)))
    rw [outside, Option.none_or, List.cons_append, List.findIdx?_cons, below]
    simp
  · rw [Routine.instruction?, Routine.node?, here, Option.bind_some, found, Option.map_some]

end Frontier

namespace Routine

/-- Living nodes that were derived from a node, with the instructions of a block in order. -/
structure Children (routine : Routine) (place : Nat) (block : List Instruction)
    (children : List Nat) : Prop where
  alive : ∀ child ∈ children, routine.Alive child
  block : children.map (fun child => (routine.forest.get? child).map fun node =>
    (node.parent, node.instruction)) = block.map fun instruction => some (some place, instruction)

/-- A jump to a label leads to the first current instruction that is a node or was derived from it. -/
def LeadsTo (routine : Routine) (label : Label) (node : Nat) : Prop :=
  ∃ landing,
    routine.sequence.findIdx? (fun id => id = node || routine.forest.descends id node) = some landing ∧
    ∀ position, routine.state.destination position (.goto label) = .ok (some landing)

theorem Runnable.leads_to {registry : Registry} {routine : Routine} (runnable : routine.Runnable registry)
    {landing : Nat} {instruction : Instruction} (found : routine.instruction? landing = some instruction)
    (named : instruction.label.isNamed = true) (position : Nat) :
    routine.state.destination position (.goto instruction.label) = .ok (some landing) := by
  rw [runnable.instruction?_eq] at found
  rw [runnable.destination_iff]
  cases label : instruction.label with
  | empty => cases label ▸ named
  | exit => cases label ▸ named
  | named index => exact .named found label

/-- A step ends the program at an instruction only by the jump of that instruction to `EXIT`. -/
theorem Runnable.exit_of_halted {registry : Registry} {routine : Routine}
    (runnable : routine.Runnable registry) {run : Argument.Runner} {position : Nat} {spent : UInt64}
    (executed : (routine.stepWith registry run).2 = .done (.executed position spent))
    (halted : (routine.stepWith registry run).1.state.halted = true) :
    ∃ instruction, routine.instruction? position = some instruction ∧
      instruction.target? = some .exit := by
  have stepped := Routine.stepped registry run routine
  generalize routine.stepWith registry run = outcome at stepped executed halted
  cases stepped with
  | halted _ => cases executed
  | past _ _ => cases executed
  | failed _ _ _ => cases executed
  | unfinished _ _ _ => cases executed
  | lost _ _ _ _ => cases executed
  | @executed instruction effect next going found tried led =>
      cases executed
      refine ⟨instruction, found, ?_⟩
      rw [moved_halted _ _ _ going, Option.isNone_iff_eq_none] at halted
      subst halted
      have leaves := runnable.destination_iff.mp led
      obtain ⟨applied, application, flow, _, _⟩ := Operation.execute_done tried
      cases outward : effect.flow with
      | next =>
          rw [outward] at leaves
          cases leaves
      | goto target =>
          rw [outward] at leaves
          cases leaves
          rcases Operation.flow_of_apply application with straight | ⟨target, jumps, there⟩
          · rw [flow, straight] at outward
            cases outward
          · rw [flow, there] at outward
            cases outward
            exact jumps

end Routine

section Inlined

variable {registry : Registry} {definition : Definition} {routine : Routine} {branches : List Branch}
  {draft : Draft} {id place : Nat} {node parent : Node}

/-- A living node that was derived from another is among the living children of that node, which carry its
block. -/
theorem Frontier.children_of_parent (frontier : Frontier registry definition routine branches draft)
    (wellFormed : registry.WellFormed) (alive : routine.Alive id)
    (found : routine.forest.get? id = some node) (derived : node.parent = some place)
    (parentFound : routine.forest.get? place = some parent) :
    ∃ branch ∈ branches, ∃ (children : List Branch) (own : Draft) (body : List Instruction),
      (Branch.node place parent.instruction children).Part branch ∧ id ∈ children.map Branch.id ∧
      parent.instruction.operation.StandsFor registry own body ∧
      (∀ label ∈ own.labels, label.isNamed = true) ∧
      children.map Branch.instruction = labelFirst parent.instruction.label body ∧
      routine.Children place (labelFirst parent.instruction.label body) (children.map Branch.id) := by
  obtain ⟨branch, inBranches, member⟩ := frontier.alive alive
  obtain ⟨drafts, owns, shares⟩ := frontier.owned
  have named := (shares.avoids (frontier.avoids wellFormed) place).named
  rw [branch.ids_eq, List.mem_cons] at member
  rcases member with rfl | member
  · obtain ⟨_, _, _, _, root⟩ := frontier.root_of_mem inBranches
    rw [root] at found
    cases found
    cases derived
  · obtain ⟨other, instruction, children, within, child, inChildren, rfl⟩ :=
      Branch.exists_parent_part member
    have held := within.held (frontier.held branch inBranches)
    have partOwns := within.owns (owns branch inBranches)
    cases held with
    | @node _ origin _ originFound linked inner =>
        obtain rfl : place = other := by
          obtain ⟨ordinal, here⟩ := List.mem_iff_getElem?.mp inChildren
          rw [linked here] at found
          cases found
          exact (Option.some.inj derived).symm
        obtain rfl : parent = origin := Option.some.inj (parentFound.symm.trans originFound)
        cases partOwns with
        | @node _ _ _ body stands complete _ =>
            refine ⟨branch, inBranches, children, drafts place, body, within,
              List.mem_map_of_mem inChildren, stands, named, complete, ?_, ?_⟩
            · intro sibling inSiblings
              obtain ⟨first, inFirst, rfl⟩ := List.mem_map.mp inSiblings
              exact frontier.alive_part inBranches (.trans (.child inFirst .whole) within)
            · rw [← complete, List.map_map, List.map_map]
              apply List.map_congr_left
              intro sibling inSiblings
              obtain ⟨ordinal, here⟩ := List.mem_iff_getElem?.mp inSiblings
              simp [linked here, Node.child]

/-- The living children of a node that calls a function are a copy of the function, and the jumps to `EXIT`
of the function lead to the last of them. -/
theorem Frontier.exits_lead_to_tail (frontier : Frontier registry definition routine branches draft)
    (wellFormed : registry.WellFormed) (runnable : routine.Runnable registry) {subject : Variable}
    {call : Call} {use : Use} (alive : routine.Alive id) (found : routine.forest.get? id = some node)
    (derived : node.parent = some place) (parentFound : routine.forest.get? place = some parent)
    (composed : parent.instruction.operation = use.composition subject call) :
    ∃ (callee : Routine) (frame : Frame) (children : List Nat) (tail : Nat),
      registry[call.function]? = some callee ∧ id ∈ children ∧
      routine.Children place
        (labelFirst parent.instruction.label (frame.block subject callee call.arguments use)) children ∧
      children.getLast? = some tail ∧
      ∀ original ∈ callee.instructions, original.target? = some .exit →
        ∃ leave, (frame.copyOf callee original).target? = some leave ∧ leave.isNamed = true ∧
          routine.LeadsTo leave tail := by
  obtain ⟨branch, inBranches, children, own, body, within, member, stands, named, complete, living⟩ :=
    frontier.children_of_parent wellFormed alive found derived parentFound
  rw [composed] at stands
  obtain ⟨callee, frame, calleeFound, fits, rfl, rfl⟩ := stands.of_composition
  have last : (children.map Branch.instruction).getLast? = some (frame.tail subject use) := by
    rw [complete, Frame.getLast?_block]
  rw [List.getLast?_map, Option.map_eq_some_iff] at last
  obtain ⟨tail, isLast, tailInstruction⟩ := last
  have tailWithin : tail.Part branch := .trans (.child (List.mem_of_getLast? isLast) .whole) within
  refine ⟨callee, frame, children.map Branch.id, tail.id, calleeFound, member, living, ?_, ?_⟩
  · rw [List.getLast?_map, isLast, Option.map_some]
  · intro original inCallee jumps
    obtain ⟨leave, there, target⟩ := Frame.target_of_exit fits inCallee jumps
    have isNamed : leave.isNamed = true := named leave (Frame.leave_mem_draft there)
    obtain ⟨landing, first, position, atLanding, label⟩ := frontier.first_below inBranches tailWithin
    have same : first.label = leave := by
      rw [label, tailInstruction, Frame.tail, there, Option.getD_some]
      rfl
    refine ⟨leave, target, isNamed, landing, position, ?_⟩
    rw [← same] at isNamed ⊢
    exact runnable.leads_to atLanding isNamed

end Inlined

/-- `EXIT` stays the program's own. Whatever was done to the main routine of an accepted source, an
instruction that jumps to `EXIT` was derived only from instructions that jump to `EXIT`, its source
instruction among them. So a step at an instruction that was derived from any other source instruction does
not end the program. Where a call was inlined, the jumps to `EXIT` in the function lead to the first current
instruction of the tail of the call. -/
theorem Program.exit_stays_own (source : Source) (accepted : source.violations = []) :
    ∃ program, Program.load source = .ok program ∧ ∀ actions : List Action,
      let main := program.main.after program.functions actions
      (∀ id ∈ main.sequence, ∀ node, main.forest.get? id = some node →
        node.instruction.target? = some .exit →
        (∀ upper ∈ main.forest.ancestors id, ∀ origin, main.forest.get? upper = some origin →
          origin.instruction.target? = some .exit) ∧
        ∃ origin instruction, source.program.body[origin]? = some instruction ∧
          main.forest.Above origin id ∧ instruction.target? = some .exit) ∧
      (∀ fuel position spent id origin instruction,
        (main.step program.functions fuel).2 = .done (.executed position spent) →
        main.sequence[position]? = some id → main.forest.Above origin id →
        source.program.body[origin]? = some instruction → instruction.target? ≠ some .exit →
        (main.step program.functions fuel).1.state.halted = false) ∧
      ∀ id node place parent subject call use, main.Alive id → main.forest.get? id = some node →
        node.parent = some place → main.forest.get? place = some parent →
        parent.instruction.operation = Use.composition subject call use →
        ∃ (callee : Routine) (frame : Frame) (children : List Nat) (tail : Nat),
          program.functions[call.function]? = some callee ∧ id ∈ children ∧
          main.Children place
            (labelFirst parent.instruction.label (frame.block subject callee call.arguments use))
            children ∧
          children.getLast? = some tail ∧
          ∀ original ∈ callee.instructions, original.target? = some .exit →
            ∃ leave, (frame.copyOf callee original).target? = some leave ∧
              leave.isNamed = true ∧ main.LeadsTo leave tail := by
  obtain ⟨program, loaded, sourceMain, wellFormed, resolved, fit⟩ := Program.load_wellFormed accepted
  refine ⟨program, loaded, ?_⟩
  intro actions main
  obtain ⟨branches, draft, frontier⟩ :=
    (Frontier.ofDefinition program.functions source.program).after actions
  rw [← sourceMain] at frontier
  have runnable : main.Runnable program.functions := frontier.runnable wellFormed resolved fit
  refine ⟨?_, ?_, ?_⟩
  · intro id member node found jumps
    have alive := Routine.alive_of_mem member
    refine ⟨fun upper above origin originFound =>
      frontier.exit_inherited wellFormed alive found jumps (.inr above) originFound, ?_⟩
    obtain ⟨origin, instruction, here, above⟩ := frontier.exists_source alive
    exact ⟨origin, instruction, here, above,
      frontier.exit_inherited wellFormed alive found jumps above (frontier.roots here)⟩
  · intro fuel position spent id origin instruction executed here above atSource other
    by_contra going
    obtain ⟨current, found, jumps⟩ :=
      runnable.exit_of_halted executed (Bool.not_eq_false _ ▸ going)
    obtain ⟨node, nodeFound, rfl⟩ := Option.map_eq_some_iff.mp found
    rw [Routine.node?, here, Option.bind_some] at nodeFound
    exact other (frontier.exit_inherited wellFormed (Routine.alive_of_mem (List.mem_of_getElem? here))
      nodeFound jumps above (frontier.roots atSource))
  · intro id node place parent subject call use alive found derived parentFound composed
    exact frontier.exits_lead_to_tail wellFormed runnable alive found derived parentFound composed

/-- A program that ends by `EXIT`, and calls a function that does. -/
def leavingSource : Source :=
  ⟨⟨"Main", [.plain (.quote .result ⟨"Leave", [.var (.input 1)]⟩), .plain (.jumpZero .result .exit),
      .plain (.increase .result)]⟩,
    [⟨"Leave", [.plain (.jumpNotZero (.input 1) .exit), .plain (.increase .result)]⟩]⟩

/-- The call is inlined as the nodes from 3 on. -/
theorem Program.leaving_exit_stays_own :
    leavingSource.violations = [] ∧ ∃ program, Program.load leavingSource = .ok program ∧
      let main := program.main.after program.functions [.expand 2, .collapse]
      ∃ (callee : Routine) (frame : Frame) (children : List Nat) (tail : Nat),
        program.functions["Leave"]? = some callee ∧ 3 ∈ children ∧ children.getLast? = some tail ∧
        ∀ original ∈ callee.instructions, original.target? = some .exit →
          ∃ leave, (frame.copyOf callee original).target? = some leave ∧
            leave.isNamed = true ∧ main.LeadsTo leave tail := by
  have accepted : leavingSource.violations = [] := by decide
  refine ⟨accepted, ?_⟩
  obtain ⟨program, loaded, exits⟩ := Program.exit_stays_own leavingSource accepted
  have inlined : (Program.load leavingSource).toOption.all (fun program =>
      let main := program.main.after program.functions [.expand 2, .collapse]
      main.sequence.contains 3 && (main.forest.get? 3).bind Node.parent == some 0 &&
        (main.forest.get? 0).map (·.instruction.operation) ==
          some (Use.assign.composition .result ⟨"Leave", [.var (.input 1)]⟩)) = true := by
    decide +kernel
  rw [loaded] at inlined
  simp only [Except.toOption, Option.all_some, Bool.and_eq_true, beq_iff_eq, List.contains_iff_mem,
    Option.bind_eq_some_iff, Option.map_eq_some_iff] at inlined
  obtain ⟨⟨current, node, found, derived⟩, parent, parentFound, composed⟩ := inlined
  obtain ⟨_, _, calls⟩ := exits [.expand 2, .collapse]
  obtain ⟨callee, frame, children, tail, known, member, _, last, lands⟩ :=
    calls 3 node 0 parent _ _ _ (Routine.alive_of_mem current) found derived parentFound composed
  exact ⟨program, loaded, callee, frame, children, tail, known, member, last, lands⟩

end CounterMachine
