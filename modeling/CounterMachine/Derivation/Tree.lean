import CounterMachine.Derivation.Inlining
import CounterMachine.Derivation.Rules
set_option autoImplicit false

/-!
# Derivation trees

Expanding an instruction for some rounds yields a tree: an instruction that is not expanded is a leaf, any
other has the instructions that it stands for as children. The tree is then added to a forest, a child and
all that is below it before its next sibling; the leaves take the place of the instruction.
-/

namespace CounterMachine

/-- An instruction with what it is expanded into. -/
inductive Derivation where
  | leaf (instruction : Instruction)
  | node (instruction : Instruction) (children : List Derivation)

/-- One round: the instructions that an instruction stands for. -/
def Operation.expansion (registry : Registry) (operation : Operation) : Fresh (List Instruction) :=
  match operation with
  | .increase _ | .decrease _ | .jumpNotZero _ _ | .neutral _ => return [.plain operation]
  | .zeroVariable subject => Rules.zero subject
  | .gotoLabel target => Rules.goto target
  | .constantAssignment subject value => Rules.constant subject value
  | .assignment subject source => Rules.copy subject source
  | .jumpZero subject target => Rules.jumpIfZero subject target
  | .jumpEqualConstant subject value target => Rules.jumpIfConstant subject value target
  | .jumpEqualVariable subject other target => Rules.jumpIfEqual subject other target
  | .quote subject call => Inlining.inline registry subject call .assign
  | .jumpEqualFunction subject call target => Inlining.inline registry subject call (.compare target)

/-- Attaches a label to the first of some instructions. -/
def labelFirst (label : Label) : List Instruction → List Instruction
  | [] => []
  | first :: rest => { first with label } :: rest

/-- Expands an instruction for some rounds. Its label goes to the first instruction it stands for. -/
def Instruction.derive (registry : Registry) : (rounds : Nat) → Instruction → Fresh Derivation
  | 0, instruction => return .leaf instruction
  | rounds + 1, instruction =>
      if instruction.isBasic then return .leaf instruction
      else do
        let body ← instruction.operation.expansion registry
        let children ← (labelFirst instruction.label body).mapM (derive registry rounds)
        return .node instruction children

/-- A forest that grows, and the nodes that are to be executed. -/
structure Growth where
  forest : Forest
  sequence : Array Nat := #[]

namespace Growth

mutual

/-- Adds a tree as a child of the node known as `id`. -/
def graft (growth : Growth) (id : Nat) (parent : Node) (ordinal : Nat) : Derivation → Growth
  | .leaf instruction =>
      let place := growth.forest.size
      { forest := growth.forest.push (parent.child id ordinal instruction)
        sequence := growth.sequence.push place }
  | .node instruction children =>
      let place := growth.forest.size
      let node := parent.child id ordinal instruction
      graftAll { growth with forest := growth.forest.push node } place node 0 children

/-- Adds trees as children of the node known as `id`, the first of them with an ordinal. -/
def graftAll (growth : Growth) (id : Nat) (parent : Node) (ordinal : Nat) :
    List Derivation → Growth
  | [] => growth
  | tree :: rest => (growth.graft id parent ordinal tree).graftAll id parent (ordinal + 1) rest

end

/-- Puts the leaves of a tree in the place of a node that is already in the forest. -/
def replace (growth : Growth) (id : Nat) (node : Node) : Derivation → Growth
  | .leaf _ => { growth with sequence := growth.sequence.push id }
  | .node _ children => growth.graftAll id node 0 children

end Growth

end CounterMachine
