import CounterMachine.Digest.Tree
import CounterMachine.Instruction
set_option autoImplicit false

/-!
# Derivation forests

Every instruction that a function has ever held is a node of a forest. The roots are the source
instructions; the children of a node are the instructions that it was expanded into. A node is known by its
place in the order of arrival, so a parent comes before its children.
-/

namespace CounterMachine

/-! ## Signatures

A signature identifies an instruction by its origin. That of a source instruction gives its position; that
of a derived instruction continues the signature of its parent by its ordinal among the siblings. Each link
also shows the mnemonic, the label and the operation. The handle of a signature is a short form of it. -/

/-- The text that identifies an instruction of a function. -/
structure Signature where
  text : String
deriving DecidableEq

namespace Signature

/-- One link of a signature. -/
def link (ordinal : Nat) (instruction : Instruction) : String :=
  ordinal.repr ++ ":" ++ instruction.kind.mnemonic ++ "[" ++ instruction.label.render ++ "] " ++
    instruction.render

def root (position : Nat) (instruction : Instruction) : Signature :=
  ⟨link position instruction⟩

def child (parent : Signature) (ordinal : Nat) (instruction : Instruction) : Signature :=
  ⟨parent.text ++ " > " ++ link ordinal instruction⟩

/-- The handle: the first six bytes of the hash of the text. -/
def digest (signature : Signature) : String :=
  Digest.handle 6 signature.text

/-- Whether a key is the text or the handle of a signature. -/
def matchesKey (signature : Signature) (key : String) : Bool :=
  signature.text = key || signature.digest = key

end Signature

/-! ## Nodes -/

/-- An instruction with its origin. -/
structure Node where
  instruction : Instruction
  parent : Option Nat
  signature : Signature
  /-- The number of ancestors. -/
  depth : Nat
deriving DecidableEq

namespace Node

/-- The node of the source instruction at a position. -/
def root (position : Nat) (instruction : Instruction) : Node :=
  { instruction, parent := none, signature := .root position instruction, depth := 0 }

/-- A child of the node known as `id`. -/
def child (id : Nat) (parent : Node) (ordinal : Nat) (instruction : Instruction) : Node :=
  { instruction
    parent := some id
    signature := parent.signature.child ordinal instruction
    depth := parent.depth + 1 }

end Node

/-! ## Forests -/

/-- The nodes of a function in the order of their arrival. -/
structure Forest where
  nodes : Array Node := #[]
deriving DecidableEq

namespace Forest

/-- How many nodes have arrived; the next node is known by this number. -/
def size (forest : Forest) : Nat :=
  forest.nodes.size

def get? (forest : Forest) (id : Nat) : Option Node :=
  forest.nodes[id]?

def push (forest : Forest) (node : Node) : Forest :=
  { forest with nodes := forest.nodes.push node }

def truncate (forest : Forest) (size : Nat) : Forest :=
  { forest with nodes := forest.nodes.take size }

/-- The parent of a node, its parent and so on, the nearest first. -/
def ancestors (forest : Forest) (id : Nat) : List Nat :=
  match (forest.get? id).bind Node.parent with
  | none => []
  | some parent => if parent < id then parent :: forest.ancestors parent else []
termination_by id

def descends (forest : Forest) (id ancestor : Nat) : Bool :=
  (forest.ancestors id).contains ancestor

def ofRoots (instructions : List Instruction) : Forest :=
  ⟨(instructions.zipIdx.map fun (instruction, position) => Node.root position instruction).toArray⟩

end Forest

end CounterMachine
