import CounterMachine.Derivation.Tree
set_option autoImplicit false

/-!
# Expansion and collapse

Expansion replaces current instructions by what they stand for, for a number of rounds. An expansion that
fails changes nothing. Collapse undoes expansion: nodes of the current sequence are replaced by the parent that
they were derived from. All nodes derived from one parent give way to it together.
-/

namespace CounterMachine

namespace Routine

/-! ## Expansion -/

/-- The names that are in use, with the supply of the routine. -/
def supply (routine : Routine) : Supply :=
  ⟨routine.state.names, routine.labelsInUse, routine.varsInUse⟩

/-- The trees of the current instructions; only the selected positions are expanded. -/
def derivations (routine : Routine) (registry : Registry) (rounds : Nat) (selected : Nat → Bool) :
    Fresh (List Derivation) :=
  routine.instructions.zipIdx.mapM fun (instruction, position) =>
    if selected position then instruction.derive registry rounds else return .leaf instruction

def expandSelected (routine : Routine) (registry : Registry) (rounds : Nat) (selected : Nat → Bool) :
    Except Failure Routine := do
  let (trees, supply) ← (routine.derivations registry rounds selected).run routine.supply
  let places := (routine.sequence.zip routine.nodes).zip trees
  let growth := places.foldl (fun (growth : Growth) ((id, node), tree) => growth.replace id node tree)
    { forest := routine.forest }
  return { routine with
    forest := growth.forest
    sequence := growth.sequence.toList
    state := { routine.state with names := supply.names } }.refresh

/-- Expands every current instruction for some rounds. -/
def expand (routine : Routine) (registry : Registry) (rounds : Nat) : Except Failure Routine :=
  routine.expandSelected registry rounds fun _ => true

def expandSingle (routine : Routine) (registry : Registry) (key : String) (rounds : Nat) :
    Except Failure Routine := do
  let position ← routine.find key
  routine.expandSelected registry rounds (· = position)

end Routine

/-! ## Collapse -/

/-- Replaces members of a sequence: members with the same replacement give way to it once, at the place of
the first of them. -/
def replaceTogether (replacement : Nat → Option Nat) : List Nat → (seen : List Nat) → List Nat
  | [], _ => []
  | id :: rest, seen =>
      match replacement id with
      | none => id :: replaceTogether replacement rest seen
      | some parent =>
          if seen.contains parent then replaceTogether replacement rest seen
          else parent :: replaceTogether replacement rest (parent :: seen)

namespace Routine

/-- The largest depth in the current sequence; 0 if nothing is expanded. -/
def maxDepth (routine : Routine) : Nat :=
  (routine.nodes.map Node.depth).foldl max 0

/-- The parent of a node that has a depth. -/
def parentAtDepth? (routine : Routine) (depth id : Nat) : Option Nat :=
  (routine.forest.get? id).bind fun node => if node.depth = depth then node.parent else none

/-- Replaces the deepest nodes by their parents. -/
def collapse (routine : Routine) : Routine :=
  let depth := routine.maxDepth
  if depth = 0 then routine
  else
    { routine with
      sequence := replaceTogether (routine.parentAtDepth? depth) routine.sequence [] }.refresh

/-- Collapses until only source instructions are left. -/
def collapseAll (routine : Routine) : Routine :=
  Nat.repeat collapse routine.maxDepth routine

/-- Replaces everything that was derived from the parent of the instruction with a key by that parent. A
source instruction is left alone. -/
def collapseSingle (routine : Routine) (key : String) : Except Failure Routine :=
  match routine.find key with
  | .error failure => .error failure
  | .ok position =>
      match (routine.node? position).bind Node.parent with
      | none => .ok routine
      | some parent =>
          let replacement (id : Nat) := if routine.forest.descends id parent then some parent else none
          .ok { routine with
            sequence := replaceTogether replacement routine.sequence [] }.refresh

end Routine

end CounterMachine
