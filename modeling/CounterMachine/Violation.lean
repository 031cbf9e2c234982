import CounterMachine.Source
set_option autoImplicit false

/-!
# Violations

A source that is to be run has to satisfy some rules: no definition is empty, function names are distinct, a
named label is attached once at most and `EXIT` never, every named target is attached in the same definition,
and every call names a function and passes as many arguments as the function has inputs. This module lists
all violations of the rules.
-/

namespace CounterMachine

/-- A violation of a rule. Positions of instructions count from 0. -/
inductive Violation where
  | emptyDefinition (definition : String)
  | duplicateFunction (name : String)
  | duplicateLabel (definition : String) (label : Label) (position first : Nat)
  | exitAsLabel (definition : String) (position : Nat)
  | undefinedLabel (definition : String) (label : Label) (position : Nat)
  | unknownFunction (definition name : String) (position : Nat)
  | arityMismatch (definition callee : String) (expected found position : Nat)
deriving DecidableEq

def Violation.message : Violation → String
  | emptyDefinition definition => definition ++ ": definition has no instructions"
  | duplicateFunction name => "function '" ++ name ++ "' is defined more than once"
  | duplicateLabel definition label position first =>
      definition ++ ": label " ++ label.render ++ " at instruction " ++ position.repr ++
        " is already attached at instruction " ++ first.repr
  | exitAsLabel definition position =>
      definition ++ ": EXIT cannot label instruction " ++ position.repr
  | undefinedLabel definition label position =>
      definition ++ ": jump to undefined label " ++ label.render ++ " at instruction " ++
        position.repr
  | unknownFunction definition name position =>
      definition ++ ": call to unknown function '" ++ name ++ "' at instruction " ++ position.repr
  | arityMismatch definition callee expected found position =>
      definition ++ ": '" ++ callee ++ "' expects " ++ expected.repr ++ " arguments, got " ++
        found.repr ++ " at instruction " ++ position.repr

namespace Definition

/-- The violation of an instruction's own label: `EXIT`, or a label that an earlier instruction has. -/
def attachmentViolation? (definition : Definition) (position : Nat) (label : Label) :
    Option Violation :=
  match label with
  | .empty => none
  | .exit => some (.exitAsLabel definition.name position)
  | .named _ =>
      match definition.body.findIdx? fun instruction => instruction.label = label with
      | some first =>
          if first < position then some (.duplicateLabel definition.name label position first)
          else none
      | none => none

/-- The violation of a jump: a named target that no instruction of the definition has. -/
def targetViolation? (definition : Definition) (position : Nat) (target : Label) :
    Option Violation :=
  if target.isNamed && !definition.body.any fun instruction => instruction.label = target then
    some (.undefinedLabel definition.name target position)
  else none

/-- The violations of labels: first those of the attached labels, then those of the targets. -/
def labelViolations (definition : Definition) : List Violation :=
  definition.body.zipIdx.filterMap (fun (instruction, position) =>
      definition.attachmentViolation? position instruction.label) ++
    definition.body.zipIdx.filterMap fun (instruction, position) =>
      instruction.target?.bind (definition.targetViolation? position)

end Definition

namespace Source

/-- The number of inputs of the last function with a name. -/
def arity? (source : Source) (name : String) : Option Nat :=
  (source.functions.reverse.find? fun function => function.name = name).map fun function =>
    function.inputs.length

/-- The violation of one call, the calls inside it not considered. -/
def callViolation? (source : Source) (definition : String) (position : Nat) (call : Call) :
    Option Violation :=
  match source.arity? call.function with
  | none => some (.unknownFunction definition call.function position)
  | some expected =>
      if expected = call.arguments.length then none
      else some (.arityMismatch definition call.function expected call.arguments.length position)

/-- The violations of the calls of a definition, an outer call before the calls inside it. -/
def callViolations (source : Source) (definition : Definition) : List Violation :=
  definition.body.zipIdx.flatMap fun (instruction, position) =>
    (instruction.call?.toList.flatMap Call.calls).filterMap
      (source.callViolation? definition.name position)

def emptyDefinitions (source : Source) : List Violation :=
  (source.definitions.filter fun definition => definition.body.isEmpty).map fun definition =>
    .emptyDefinition definition.name

/-- The function names that are repeated, each at its second occurrence. -/
def duplicateFunctions (source : Source) : List Violation :=
  let names := source.functions.map Definition.name
  (names.zipIdx.filter fun (name, position) => (names.take position).count name = 1).map
    fun (name, _) => .duplicateFunction name

/-- All violations: empty definitions, repeated functions, then the labels and at last the calls of each
definition. -/
def violations (source : Source) : List Violation :=
  source.emptyDefinitions ++ source.duplicateFunctions ++
    source.definitions.flatMap Definition.labelViolations ++
    source.definitions.flatMap source.callViolations

end Source

end CounterMachine
