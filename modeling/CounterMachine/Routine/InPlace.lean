import CounterMachine.Routine.Expansion
set_option autoImplicit false

/-!
# Expansion in place

A routine can be expanded in its own forest, without the derivation trees being built first. The work adds
nodes and draws names as it goes, so a failure in the middle of it leaves some of both behind. They are then
dropped and taken back.
-/

namespace CounterMachine

/-- What an expansion changes while it is under way: the forest gets nodes, and the supply gives names. -/
structure Workspace where
  forest : Forest
  supply : Supply

/-- Work on a forest and a supply. If it fails, what it has done until then stays done. -/
abbrev Growing := ExceptT Failure (StateM Workspace)

namespace Growing

def draw {α : Type} (computation : Fresh α) : Growing α := fun workspace =>
  match computation workspace.supply with
  | .ok (value, supply) => (.ok value, { workspace with supply })
  | .error failure => (.error failure, workspace)

/-- Adds a node, and yields the number that it is known by. -/
def push (node : Node) : Growing Nat := fun workspace =>
  (.ok workspace.forest.size, { workspace with forest := workspace.forest.push node })

/-- Expands a node for some rounds, a child and all that comes from it before its next sibling. The nodes
that take its place are returned. -/
def expand (registry : Registry) : (rounds : Nat) → (id : Nat) → Node → Growing (List Nat)
  | 0, id, _ => return [id]
  | rounds + 1, id, node =>
      if node.instruction.isBasic then return [id]
      else do
        let body ← draw (node.instruction.operation.expansion registry)
        let children := (labelFirst node.instruction.label body).zipIdx
        let places ← children.mapM fun (instruction, ordinal) => do
          let child := node.child id ordinal instruction
          let place ← push child
          expand registry rounds place child
        return places.flatten

end Growing

namespace Routine

/-- Expands selected positions. The routine has the nodes and the names that the work leaves behind, whether
it succeeds or not; its sequence is not changed yet. -/
def grow (routine : Routine) (registry : Registry) (rounds : Nat) (selected : Nat → Bool) :
    Routine × Except Failure (List (List Nat)) :=
  let work : Growing (List (List Nat)) :=
    (routine.sequence.zip routine.nodes).zipIdx.mapM fun ((id, node), position) =>
      if selected position then Growing.expand registry rounds id node else return [id]
  let (places, workspace) := work ⟨routine.forest, routine.supply⟩
  ({ routine with
    forest := workspace.forest
    state := { routine.state with names := workspace.supply.names } }, places)

/-- Drops all nodes but the first ones, and takes names back. -/
def rollBack (routine : Routine) (size : Nat) (names : Names) : Routine :=
  { routine with
    forest := routine.forest.truncate size
    state := { routine.state with names } }

def expandSelectedInPlace (routine : Routine) (registry : Registry) (rounds : Nat)
    (selected : Nat → Bool) : Routine × Except Failure Unit :=
  match routine.grow registry rounds selected with
  | (grown, .ok places) => ({ grown with sequence := places.flatten }.refresh, .ok ())
  | (grown, .error failure) =>
      (grown.rollBack routine.forest.size routine.state.names, .error failure)

/-- Expands every current instruction for some rounds. -/
def expandInPlace (routine : Routine) (registry : Registry) (rounds : Nat) :
    Routine × Except Failure Unit :=
  routine.expandSelectedInPlace registry rounds fun _ => true

def expandSingleInPlace (routine : Routine) (registry : Registry) (key : String) (rounds : Nat) :
    Routine × Except Failure Unit :=
  match routine.find key with
  | .ok position => routine.expandSelectedInPlace registry rounds (· = position)
  | .error failure => (routine, .error failure)

/-- Replaces everything that was derived from the parent of the instruction with a key by that parent. -/
def collapseSingleInPlace (routine : Routine) (key : String) : Routine × Except Failure Unit :=
  match routine.collapseSingle key with
  | .ok next => (next, .ok ())
  | .error failure => (routine, .error failure)

end Routine

end CounterMachine
