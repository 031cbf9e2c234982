import CounterMachine.Proofs.Drafts
import CounterMachine.Routine.InPlace
set_option autoImplicit false

/-!
# Expansion in place changes all or nothing

Expansion in place does to the forest what grafting the derivation trees does. Where it fails, it has only
added nodes to the forest, so that dropping them gives the old forest back. An expansion in place therefore
ends with the expanded routine or with the routine as it was.
-/

namespace CounterMachine

/-! ## Nodes that are dropped -/

namespace Forest

variable {forest larger : Forest}

theorem Within.size_le (within : forest.Within larger) : forest.size ≤ larger.size := by
  by_contra fewer
  have inside : larger.size < forest.nodes.size := Nat.lt_of_not_le fewer
  have found := within (Array.getElem?_eq_getElem inside)
  exact Nat.lt_irrefl _ (lt_size_of_get? found)

theorem truncate_of_within (within : forest.Within larger) : larger.truncate forest.size = forest := by
  have nodes : larger.nodes.take forest.size = forest.nodes := by
    apply Array.ext
    · have enough := within.size_le
      simp only [Array.take_eq_extract, Array.size_extract, size] at enough ⊢
      omega
    · intro id inTaken inForest
      have found := within (Array.getElem?_eq_getElem inForest)
      obtain ⟨inLarger, same⟩ := Array.getElem?_eq_some_iff.mp found
      simpa using same
  rw [truncate, nodes]

end Forest

/-! ## Work and trees -/

/-- A grafted tree is a new node, with what it is expanded into in its place. -/
theorem Growth.graft_eq_replace (growth : Growth) (id : Nat) (parent : Node) (ordinal : Nat)
    (tree : Derivation) :
    growth.graft id parent ordinal tree =
      { growth with forest := growth.forest.push (parent.child id ordinal tree.instruction) }.replace
        growth.forest.size (parent.child id ordinal tree.instruction) tree := by
  cases tree <;> rw [graft] <;> rfl

theorem Growth.graftAll_eq_foldl {members : List Instruction} {trees : List Derivation}
    (lengths : members.length = trees.length) (growth : Growth) (id : Nat) (parent : Node) (ordinal : Nat) :
    growth.graftAll id parent ordinal trees =
      ((members.zipIdx ordinal).zip trees).foldl
        (fun growth pair => growth.graft id parent pair.1.2 pair.2) growth := by
  induction trees generalizing members growth ordinal with
  | nil => rw [graftAll, List.zip_nil_right, List.foldl_nil]
  | cons tree rest ih =>
      cases members with
      | nil => cases lengths
      | cons member members =>
          rw [graftAll, List.zipIdx_cons, List.zip_cons_cons, List.foldl_cons,
            ih (Nat.succ.inj lengths)]

namespace Growing

variable {α β γ μ : Type}

theorem bind_ok {first : Growing α} {second : α → Growing β} {workspace next : Workspace} {value : α}
    (ran : first workspace = (.ok value, next)) : (first >>= second) workspace = second value next := by
  change (ExceptT.bindCont second (first workspace).1) (first workspace).2 = _
  rw [ran]
  rfl

theorem bind_error {first : Growing α} {second : α → Growing β} {workspace next : Workspace}
    {failure : Failure} (ran : first workspace = (.error failure, next)) :
    (first >>= second) workspace = (.error failure, next) := by
  change (ExceptT.bindCont second (first workspace).1) (first workspace).2 = _
  rw [ran]
  rfl

/-- Work does on a forest what a computation followed by an addition to the forest does. It yields the places
that are added to the sequence. Where the computation fails, so does the work, and it has only added nodes. -/
structure Realizes (places : β → List Nat) (work : Growing β) (computation : Fresh α)
    (add : Growth → α → Growth) : Prop where
  success : ∀ {supply value next}, computation supply = .ok (value, next) → ∀ growth : Growth,
    ∃ result, work ⟨growth.forest, supply⟩ = (.ok result, ⟨(add growth value).forest, next⟩) ∧
      (add growth value).sequence.toList = growth.sequence.toList ++ places result ∧
      growth.forest.Within (add growth value).forest
  failure : ∀ {supply failure}, computation supply = .error failure → ∀ forest : Forest,
    ∃ left : Workspace, work ⟨forest, supply⟩ = (.error failure, left) ∧ forest.Within left.forest

namespace Realizes

theorem stay (id : Nat) (node : Node) (instruction : Instruction) :
    Realizes (fun places => places) (pure [id]) (pure (.leaf instruction))
      fun growth tree => growth.replace id node tree where
  success := by
    intro supply value next returned growth
    obtain ⟨rfl, rfl⟩ := Fresh.pure_ok returned
    exact ⟨[id], rfl, by simp [Growth.replace], fun found => found⟩
  failure := nofun

/-- Work on one member after the other adds what is added for each. -/
theorem mapM {work : μ → Growing (List Nat)} {computation : μ → Fresh α} {add : μ → Growth → α → Growth}
    (each : ∀ member, Realizes (fun places => places) (work member) (computation member) (add member))
    (members : List μ) :
    Realizes List.flatten (members.mapM work) (members.mapM computation)
      fun growth values => (members.zip values).foldl (fun growth pair => add pair.1 growth pair.2) growth := by
  induction members with
  | nil =>
      rw [List.mapM_nil, List.mapM_nil]
      constructor
      · intro supply values next returned growth
        obtain ⟨rfl, rfl⟩ := Fresh.pure_ok returned
        exact ⟨[], rfl, by simp, fun found => found⟩
      · exact nofun
  | cons member rest ih =>
      rw [List.mapM_cons, List.mapM_cons]
      constructor
      · intro supply values next returned growth
        obtain ⟨value, middle, first, returned⟩ := Fresh.bind_ok returned
        obtain ⟨others, last, later, returned⟩ := Fresh.bind_ok returned
        obtain ⟨rfl, rfl⟩ := Fresh.pure_ok returned
        obtain ⟨places, ran, sequence, within⟩ := (each member).success first growth
        obtain ⟨others, ranLater, sequenceLater, withinLater⟩ := ih.success later (add member growth value)
        refine ⟨places :: others, ?_, ?_, fun found => withinLater (within found)⟩
        · rw [bind_ok ran, bind_ok ranLater]
          rfl
        · rw [List.zip_cons_cons, List.foldl_cons, sequenceLater, sequence, List.flatten_cons,
            List.append_assoc]
      · intro supply failure failed forest
        rcases Fresh.bind_error failed with failed | ⟨value, middle, first, failed⟩
        · obtain ⟨left, ran, within⟩ := (each member).failure failed forest
          exact ⟨left, bind_error ran, within⟩
        · obtain ⟨places, ran, _, within⟩ := (each member).success first { forest }
          rcases Fresh.bind_error failed with failed | ⟨others, last, _, failed⟩
          · obtain ⟨left, ranLater, withinLater⟩ := ih.failure failed (add member { forest } value).forest
            refine ⟨left, ?_, fun found => withinLater (within found)⟩
            rw [bind_ok ran, bind_error ranLater]
          · cases failed

end Realizes

variable {registry : Registry}

/-- A new node that is expanded where it stands is a grafted tree. -/
theorem realizes_graft {rounds : Nat}
    (below : ∀ (id : Nat) (node : Node), Realizes (fun places => places) (expand registry rounds id node)
      (node.instruction.derive registry rounds) fun growth tree => growth.replace id node tree)
    (id : Nat) (parent : Node) (ordinal : Nat) (instruction : Instruction) :
    Realizes (fun places => places)
      (push (parent.child id ordinal instruction) >>= fun place =>
        expand registry rounds place (parent.child id ordinal instruction))
      (instruction.derive registry rounds) fun growth tree => growth.graft id parent ordinal tree where
  success := by
    intro supply tree next derived growth
    obtain ⟨rfl, _⟩ := Instruction.derive_ok derived
    obtain ⟨places, ran, sequence, within⟩ :=
      (below growth.forest.size (parent.child id ordinal tree.instruction)).success derived
        { growth with forest := growth.forest.push (parent.child id ordinal tree.instruction) }
    rw [Growth.graft_eq_replace]
    exact ⟨places, ran, sequence, fun found => within (Forest.within_push _ found)⟩
  failure := by
    intro supply failure failed forest
    obtain ⟨left, ran, within⟩ := (below forest.size (parent.child id ordinal instruction)).failure failed
      (forest.push (parent.child id ordinal instruction))
    exact ⟨left, ran, fun found => within (Forest.within_push _ found)⟩

theorem realizes_graftAll {rounds : Nat}
    (below : ∀ (id : Nat) (node : Node), Realizes (fun places => places) (expand registry rounds id node)
      (node.instruction.derive registry rounds) fun growth tree => growth.replace id node tree)
    (id : Nat) (parent : Node) (block : List Instruction) :
    Realizes List.flatten
      (block.zipIdx.mapM fun member => push (parent.child id member.2 member.1) >>= fun place =>
        expand registry rounds place (parent.child id member.2 member.1))
      (block.mapM (Instruction.derive registry rounds))
      fun growth trees => growth.graftAll id parent 0 trees := by
  have each := Realizes.mapM
    (fun member : Instruction × Nat => realizes_graft below id parent member.2 member.1) block.zipIdx
  have same : block.zipIdx.mapM (m := Fresh) (fun member => member.1.derive registry rounds) =
      block.mapM (Instruction.derive registry rounds) := by
    conv_rhs => rw [← List.zipIdx_map_fst 0 block, List.mapM_map]
    rfl
  rw [same] at each
  constructor
  · intro supply trees next derived growth
    have lengths : block.length = trees.length := by
      have instructions :=
        (Drawn.mapM (fun member => member) (fun {_ _ _ _} done => Instruction.derive_ok done) derived).1
      simpa using (congrArg List.length instructions).symm
    rw [Growth.graftAll_eq_foldl lengths]
    exact each.success derived growth
  · exact each.failure

/-- Expansion of a node in place puts the leaves of its derivation tree in its place. -/
theorem expand_realizes (registry : Registry) (rounds id : Nat) (node : Node) :
    Realizes (fun places => places) (expand registry rounds id node)
      (node.instruction.derive registry rounds) fun growth tree => growth.replace id node tree := by
  induction rounds generalizing id node with
  | zero => exact .stay id node node.instruction
  | succ rounds ih =>
      rw [expand, Instruction.derive]
      cases basic : node.instruction.isBasic with
      | true => exact .stay id node node.instruction
      | false =>
          simp only [Bool.false_eq_true, if_false]
          have children := realizes_graftAll ih id node
          constructor
          · intro supply tree next derived growth
            obtain ⟨body, middle, expanded, derived⟩ := Fresh.bind_ok derived
            obtain ⟨trees, last, childrenDerived, derived⟩ := Fresh.bind_ok derived
            obtain ⟨rfl, rfl⟩ := Fresh.pure_ok derived
            obtain ⟨places, ran, sequence, within⟩ := (children _).success childrenDerived growth
            refine ⟨places.flatten, ?_, sequence, within⟩
            have drawn : draw (node.instruction.operation.expansion registry) ⟨growth.forest, supply⟩ =
                (.ok body, ⟨growth.forest, middle⟩) := by
              simp only [draw, expanded]
            rw [bind_ok drawn, bind_ok ran]
            rfl
          · intro supply failure failed forest
            rcases Fresh.bind_error failed with failed | ⟨body, middle, expanded, failed⟩
            · have drawn : draw (node.instruction.operation.expansion registry) ⟨forest, supply⟩ =
                  (.error failure, ⟨forest, supply⟩) := by
                simp only [draw, failed]
              exact ⟨⟨forest, supply⟩, bind_error drawn, fun found => found⟩
            · have drawn : draw (node.instruction.operation.expansion registry) ⟨forest, supply⟩ =
                  (.ok body, ⟨forest, middle⟩) := by
                simp only [draw, expanded]
              rcases Fresh.bind_error failed with failed | ⟨trees, last, _, failed⟩
              · obtain ⟨left, ran, within⟩ := (children _).failure failed forest
                refine ⟨left, ?_, within⟩
                rw [bind_ok drawn, bind_error ran]
              · cases failed

end Growing

/-! ## Routines -/

namespace Routine

/-- The end of an attempt that changes all or nothing: the new routine, or the old one and the failure. -/
def settled (routine : Routine) : Except Failure Routine → Routine × Except Failure Unit
  | .ok next => (next, .ok ())
  | .error failure => (routine, .error failure)

theorem settled_of_error {routine : Routine} {attempted : Except Failure Routine} {failure : Failure}
    (failed : (routine.settled attempted).2 = .error failure) : (routine.settled attempted).1 = routine := by
  cases attempted with
  | ok next => cases failed
  | error problem => rfl

variable (routine : Routine) (registry : Registry) (rounds : Nat) (selected : Nat → Bool)

/-- The trees of a routine, taken from the places of its sequence. -/
theorem derivations_eq :
    routine.derivations registry rounds selected =
      (routine.sequence.zip routine.nodes).zipIdx.mapM fun place =>
        if selected place.2 then place.1.2.instruction.derive registry rounds
        else pure (.leaf place.1.2.instruction) := by
  have nodes : (routine.sequence.zip routine.nodes).map Prod.snd = routine.nodes :=
    List.map_snd_zip (List.length_filterMap_le _ _)
  rw [derivations, instructions, ← nodes, List.map_map, List.zipIdx_map, List.mapM_map, nodes]
  rfl

/-- The work of an expansion in place grafts the trees of the routine. -/
theorem grow_realizes :
    Growing.Realizes List.flatten
      ((routine.sequence.zip routine.nodes).zipIdx.mapM fun ((id, node), position) =>
        if selected position then Growing.expand registry rounds id node else pure [id])
      (routine.derivations registry rounds selected)
      fun growth trees => ((routine.sequence.zip routine.nodes).zip trees).foldl
        (fun growth ((id, node), tree) => growth.replace id node tree) growth := by
  have each (place : (Nat × Node) × Nat) : Growing.Realizes (fun places => places)
      (if selected place.2 then Growing.expand registry rounds place.1.1 place.1.2 else pure [place.1.1])
      (if selected place.2 then place.1.2.instruction.derive registry rounds
        else pure (.leaf place.1.2.instruction))
      fun growth tree => growth.replace place.1.1 place.1.2 tree := by
    split
    · exact Growing.expand_realizes registry rounds place.1.1 place.1.2
    · exact .stay place.1.1 place.1.2 place.1.2.instruction
  have all := Growing.Realizes.mapM each (routine.sequence.zip routine.nodes).zipIdx
  rw [← derivations_eq] at all
  have places (trees : List Derivation) : (routine.sequence.zip routine.nodes).zip trees =
      ((routine.sequence.zip routine.nodes).zipIdx.zip trees).map (Prod.map Prod.fst id) := by
    rw [← List.zip_map_left, List.zipIdx_map_fst]
  simp only [places, List.foldl_map]
  exact all

/-- An expansion in place ends with the expanded routine or with the old one. -/
theorem expandSelectedInPlace_eq :
    routine.expandSelectedInPlace registry rounds selected =
      routine.settled (routine.expandSelected registry rounds selected) := by
  have realizes := routine.grow_realizes registry rounds selected
  cases derived : (routine.derivations registry rounds selected) routine.supply with
  | ok pair =>
      obtain ⟨trees, supply⟩ := pair
      obtain ⟨places, ran, sequence, _⟩ := realizes.success derived { forest := routine.forest }
      rw [List.nil_append] at sequence
      rw [expandSelectedInPlace, grow, ran, expandSelected, StateT.run, derived]
      simp only [← sequence]
      rfl
  | error failure =>
      obtain ⟨left, ran, within⟩ := realizes.failure derived routine.forest
      rw [expandSelectedInPlace, grow, ran, expandSelected, StateT.run, derived]
      simp only [rollBack, Forest.truncate_of_within within]
      rfl

theorem expandSingleInPlace_eq (key : String) :
    routine.expandSingleInPlace registry key rounds =
      routine.settled (routine.expandSingle registry key rounds) := by
  rw [expandSingleInPlace, expandSingle]
  cases routine.find key with
  | error failure => rfl
  | ok position => exact routine.expandSelectedInPlace_eq registry rounds (· = position)

theorem collapseSingleInPlace_eq (key : String) :
    routine.collapseSingleInPlace key = routine.settled (routine.collapseSingle key) := by
  rw [collapseSingleInPlace]
  cases routine.collapseSingle key <;> rfl

/-- An expansion or a collapse that fails leaves every part of a routine as it was, whatever was added and
drawn before the failure. One that succeeds is the expansion or the collapse. -/
theorem failure_changes_nothing (routine : Routine) (registry : Registry) :
    (∀ rounds failure, (routine.expandInPlace registry rounds).2 = .error failure →
      (routine.expandInPlace registry rounds).1 = routine) ∧
    (∀ key rounds failure, (routine.expandSingleInPlace registry key rounds).2 = .error failure →
      (routine.expandSingleInPlace registry key rounds).1 = routine) ∧
    (∀ key failure, (routine.collapseSingleInPlace key).2 = .error failure →
      (routine.collapseSingleInPlace key).1 = routine) ∧
    (∀ rounds, routine.expandInPlace registry rounds =
      routine.settled (routine.expand registry rounds)) ∧
    (∀ key rounds, routine.expandSingleInPlace registry key rounds =
      routine.settled (routine.expandSingle registry key rounds)) ∧
    ∀ key, routine.collapseSingleInPlace key = routine.settled (routine.collapseSingle key) := by
  have expands (rounds : Nat) : routine.expandInPlace registry rounds =
      routine.settled (routine.expand registry rounds) :=
    routine.expandSelectedInPlace_eq registry rounds fun _ => true
  have expandsSingle (key : String) (rounds : Nat) := routine.expandSingleInPlace_eq registry rounds key
  have collapsesSingle (key : String) := routine.collapseSingleInPlace_eq key
  refine ⟨?_, ?_, ?_, expands, expandsSingle, collapsesSingle⟩
  · intro rounds failure failed
    rw [expands] at failed ⊢
    exact settled_of_error failed
  · intro key rounds failure failed
    rw [expandsSingle] at failed ⊢
    exact settled_of_error failed
  · intro key failure failed
    rw [collapsesSingle] at failed ⊢
    exact settled_of_error failed

end Routine

/-- A function that calls another one with an argument too many. -/
def misfitting : Registry :=
  .add (.add ∅ (.ofDefinition ⟨"Next", [.plain (.assignment .result (.input 1))]⟩))
    (.ofDefinition ⟨"Both", [.plain (.quote .result ⟨"Next", [.var (.input 1), .var (.input 2)]⟩)]⟩)

def callsBoth : Routine :=
  .ofDefinition ⟨"Main", [.plain (.zeroVariable .result),
    .plain (.quote .result ⟨"Both", [.var (.input 1), .var (.input 2)]⟩)]⟩

/-- The wrong call is found in the second round, after nodes were added and names were drawn. -/
theorem Routine.callsBoth_failure_changes_nothing :
    callsBoth.forest.size < (callsBoth.grow misfitting 2 fun _ => true).1.forest.size ∧
    (callsBoth.grow misfitting 2 fun _ => true).1.state.names ≠ callsBoth.state.names ∧
    (callsBoth.expandInPlace misfitting 2).2 = .error (.argumentCount "Next" 1 2) ∧
    (callsBoth.expandInPlace misfitting 2).1 = callsBoth := by
  have failed : (callsBoth.expandInPlace misfitting 2).2 = .error (.argumentCount "Next" 1 2) := by
    decide +kernel
  refine ⟨by decide +kernel, by decide +kernel, failed, ?_⟩
  exact (Routine.failure_changes_nothing callsBoth misfitting).1 2 _ failed

end CounterMachine
