import CounterMachine.Violation
set_option autoImplicit false

/-!
# Verification

A source is verified in three passes, over its definitions, their labels and their calls. Each pass goes once
through the text and keeps what it has seen: names that came up, first places of labels, numbers of inputs.
-/

namespace CounterMachine

/-- The repeated names, each where it comes up for the second time. Names that came up before are `seen`, and
those that came up more than once are `reported`. -/
def repeatedNames (seen reported : Std.ExtTreeSet String) : List String → List String
  | [] => []
  | name :: rest =>
      if seen.contains name then
        if reported.contains name then repeatedNames seen reported rest
        else name :: repeatedNames seen (reported.insert name) rest
      else repeatedNames (seen.insert name) reported rest

namespace Argument

mutual

/-- The violations of the calls in an argument, an outer call before the calls inside it. -/
def check (arities : Std.ExtTreeMap String Nat) (definition : String) (position : Nat) :
    Argument → List Violation
  | .var _ => []
  | .call function arguments =>
      let inner := checkAll arities definition position arguments
      match arities[function]? with
      | none => .unknownFunction definition function position :: inner
      | some expected =>
          if expected = arguments.length then inner
          else .arityMismatch definition function expected arguments.length position :: inner

def checkAll (arities : Std.ExtTreeMap String Nat) (definition : String) (position : Nat) :
    List Argument → List Violation
  | [] => []
  | argument :: rest => argument.check arities definition position ++ checkAll arities definition position rest

end

end Argument

namespace Definition

/-- The violations of the labels attached from a position on, and the first places of all named labels. -/
def checkAttachments (definition : String) : (position : Nat) → (places : Std.ExtTreeMap Label Nat) →
    List Instruction → List Violation × Std.ExtTreeMap Label Nat
  | _, places, [] => ([], places)
  | position, places, instruction :: rest =>
      match instruction.label with
      | .empty => checkAttachments definition (position + 1) places rest
      | .exit =>
          let (later, all) := checkAttachments definition (position + 1) places rest
          (.exitAsLabel definition position :: later, all)
      | .named index =>
          match places[Label.named index]? with
          | none => checkAttachments definition (position + 1) (places.insert (.named index) position) rest
          | some first =>
              let (later, all) := checkAttachments definition (position + 1) places rest
              (.duplicateLabel definition (.named index) position first :: later, all)

/-- The violation of the target of an instruction, if it is named and has no place. -/
def checkTarget? (definition : String) (places : Std.ExtTreeMap Label Nat) (position : Nat)
    (instruction : Instruction) : Option Violation :=
  match instruction.target? with
  | some (.named index) =>
      if places.contains (.named index) then none
      else some (.undefinedLabel definition (.named index) position)
  | _ => none

def checkLabels (definition : Definition) : List Violation :=
  let (attachments, places) := checkAttachments definition.name 0 ∅ definition.body
  attachments ++ definition.body.zipIdx.filterMap fun (instruction, position) =>
    checkTarget? definition.name places position instruction

def checkCalls (arities : Std.ExtTreeMap String Nat) (definition : Definition) : List Violation :=
  definition.body.zipIdx.flatMap fun (instruction, position) =>
    match instruction.call? with
    | some call => call.toArgument.check arities definition.name position
    | none => []

end Definition

namespace Source

/-- The numbers of inputs of the functions; of two functions with one name the later counts. -/
def arities (source : Source) : Std.ExtTreeMap String Nat :=
  source.functions.foldl (fun arities function => arities.insert function.name function.inputs.length) ∅

/-- All that the passes find. -/
def check (source : Source) : List Violation :=
  let repeated := repeatedNames ∅ ∅ (source.functions.map Definition.name)
  let arities := source.arities
  source.emptyDefinitions ++ repeated.map .duplicateFunction ++
    source.definitions.flatMap Definition.checkLabels ++
    source.definitions.flatMap (Definition.checkCalls arities)

/-- Accepts a source, or reports everything that is wrong with it. -/
def verify (source : Source) : Except (List Violation) Unit :=
  match source.check with
  | [] => .ok ()
  | violations => .error violations

end Source

end CounterMachine
