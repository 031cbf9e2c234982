import CounterMachine.Derivation.Forest
import CounterMachine.Machine.Outcome
import CounterMachine.Machine.State
import CounterMachine.Source
set_option autoImplicit false

/-!
# Routines

A routine is a function in working order: the forest of its instructions, the sequence of nodes that are
currently to be executed, its inputs, its variables, and a state. Source variables are never lost; the other
variables come and go with expansion. A registry holds functions by name.
-/

namespace CounterMachine

/-- A function that can be run, expanded and collapsed. -/
structure Routine where
  name : String
  forest : Forest
  sequence : List Nat
  /-- The declared inputs in the order of the arguments. -/
  inputs : List Variable
  /-- The variables of the definition. -/
  sourceVars : VariableSet
  /-- The variables that are known now. -/
  vars : VariableSet
  state : State

/-- A line in a listing of a routine. -/
structure Row where
  /-- Counted from 1. -/
  position : Nat
  node : Node

namespace Routine

def nodes (routine : Routine) : List Node :=
  routine.sequence.filterMap routine.forest.get?

def instructions (routine : Routine) : List Instruction :=
  routine.nodes.map Node.instruction

def length (routine : Routine) : Nat :=
  routine.sequence.length

def node? (routine : Routine) (position : Nat) : Option Node :=
  routine.sequence[position]?.bind routine.forest.get?

def instruction? (routine : Routine) (position : Nat) : Option Instruction :=
  (routine.node? position).map Node.instruction

def result (routine : Routine) : UInt64 :=
  routine.state.value .result

/-- The sum of the credits of the current instructions. -/
def cost (routine : Routine) : Nat :=
  routine.instructions.foldr (fun instruction total => instruction.kind.credit + total) 0

def calls (routine : Routine) : List Call :=
  routine.instructions.filterMap Instruction.call?

/-- The nesting of the deepest current call. -/
def nesting (routine : Routine) : Nat :=
  (routine.calls.map Call.nesting).foldl max 0

/-- The names of the functions that are called now, with repetitions. -/
def calledNames (routine : Routine) : List String :=
  routine.calls.flatMap Call.functions

def isBasic (routine : Routine) : Bool :=
  routine.instructions.all Instruction.isBasic

def rows (routine : Routine) : List Row :=
  routine.nodes.zipIdx.map fun (node, index) => { position := index + 1, node }

/-- The node at a position and its ancestors, the nearest first. -/
def lineage? (routine : Routine) (position : Nat) : Option (List Node) :=
  routine.sequence[position]?.map fun id =>
    (id :: routine.forest.ancestors id).filterMap routine.forest.get?

def toDefinition (routine : Routine) : Definition :=
  ⟨routine.name, routine.instructions⟩

/-- The first position whose signature has a key as its text or its handle. -/
def find (routine : Routine) (key : String) : Except Failure Nat :=
  match routine.nodes.findIdx? fun node => node.signature.matchesKey key with
  | some position => .ok position
  | none => .error (.noSuchSignature key)

/-- The named labels that are attached or targeted now. -/
def labelsInUse (routine : Routine) : LabelSet :=
  .ofList (routine.instructions.flatMap Instruction.namedLabels)

/-- The source variables and the variables of the current instructions. -/
def varsInUse (routine : Routine) : VariableSet :=
  routine.sourceVars.insertMany (routine.instructions.flatMap Instruction.vars)

/-- The position of the first instruction with each label that is attached now. -/
def labelPositions (routine : Routine) : Std.ExtTreeMap Label Nat :=
  routine.instructions.zipIdx.foldl (fun positions (instruction, position) =>
    if instruction.label.isEmpty then positions
    else positions.insertIfNew instruction.label position) ∅

/-- Brings labels and variables in line with the current instructions. -/
def refresh (routine : Routine) : Routine :=
  { routine with
    vars := routine.varsInUse
    state := { routine.state with labels := routine.labelPositions } }

/-- A definition in working order. -/
def ofDefinition (definition : Definition) : Routine :=
  let vars := definition.vars
  let routine : Routine :=
    { name := definition.name
      forest := .ofRoots definition.body
      sequence := List.range definition.body.length
      inputs := definition.inputs
      sourceVars := vars
      vars
      state := {} }
  let routine := routine.refresh
  { routine with state := routine.state.seed routine.vars routine.inputs [] }

/-- Starts a run; the inputs take the arguments in order. -/
def start (routine : Routine) (arguments : List UInt64) : Routine :=
  { routine with
    state := routine.state.seed routine.varsInUse routine.inputs arguments }

/-- Starts a run without arguments, and the supply of names anew. -/
def reset (routine : Routine) : Routine :=
  { routine with state := routine.state.reset routine.varsInUse }

/-- Forgets the variables that the definition does not have. The instructions stay as they are, and a later
run starts with all their variables. -/
def restoreVars (routine : Routine) : Routine :=
  { routine with
    vars := routine.sourceVars
    state := routine.state.retain routine.sourceVars }

end Routine

/-! ## Registries -/

/-- Functions by name. -/
abbrev Registry := Std.ExtTreeMap String Routine

namespace Registry

def add (registry : Registry) (routine : Routine) : Registry :=
  registry.insert routine.name routine

/-- The functions of a source; of two with one name the later stays. -/
def ofSource (source : Source) : Registry :=
  source.functions.foldl (fun registry function => add registry (.ofDefinition function)) ∅

/-- A registry has fewer functions after one of its functions is erased. -/
theorem size_erase_lt {registry : Registry} {name : String} {routine : Routine}
    (found : registry[name]? = some routine) : (registry.erase name).size < registry.size := by
  have member : registry.contains name = true := by
    rw [Std.ExtTreeMap.contains_eq_isSome_getElem?, found]
    rfl
  have nonempty : registry.isEmpty = false := by
    cases empty : registry.isEmpty with
    | false => rfl
    | true =>
        rw [Std.ExtTreeMap.isEmpty_iff.mp empty] at member
        simp at member
  rw [Std.ExtTreeMap.isEmpty_eq_size_beq_zero, beq_eq_false_iff_ne] at nonempty
  rw [Std.ExtTreeMap.size_erase]
  simp only [member, if_true]
  omega

end Registry

end CounterMachine
