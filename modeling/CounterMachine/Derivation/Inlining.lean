import CounterMachine.Machine.Names
import CounterMachine.Routine
set_option autoImplicit false

/-!
# Inlining of calls

A composition stands for a copy of the body of the called function, in which the known variables and the
named labels of the function are replaced by fresh ones. Around the copy, the result and the variables that
are not inputs are set to 0, each input is bound to its argument, and the result is used at the end. A jump
to `EXIT` in the copy goes to that last instruction instead.
-/

namespace CounterMachine.Inlining

open Instruction Operation

/-- What the result of a call is used for. -/
inductive Use where
  | assign
  | compare (target : Label)
deriving DecidableEq

def Use.operation (subject answer : Variable) : Use → Operation
  | assign => assignment subject answer
  | compare target => jumpEqualVariable subject answer target

def bind (slot : Variable) : Argument → Operation
  | .var name => assignment slot name
  | .call function arguments => quote slot ⟨function, arguments⟩

/-- A name in place of another, as given by a list of pairs; other names stay as they are. -/
def rename {α : Type} [BEq α] (pairs : List (α × α)) (name : α) : α :=
  (pairs.lookup name).getD name

/-- The known variables of a function that are neither its result nor inputs. -/
def localVars (callee : Routine) : List Variable :=
  callee.vars.toList.filter fun name => name ≠ .result && !callee.inputs.contains name

/-- The named labels of a function, each once, in the order of their first occurrence. -/
def localLabels (callee : Routine) : List Label :=
  (callee.instructions.flatMap Instruction.namedLabels).eraseDups

/-- Whether a function has a jump to `EXIT`. -/
def jumpsToExit (callee : Routine) : Bool :=
  callee.instructions.any fun instruction => instruction.target? = some .exit

/-- The fresh names of a copy of a function. -/
structure Frame where
  /-- In place of the result. -/
  answer : Variable
  /-- In place of the inputs. -/
  slots : List Variable
  /-- In place of the other known variables. -/
  locals : List Variable
  /-- In place of the named labels. -/
  places : List Label
  /-- In place of `EXIT`, if the function jumps there. -/
  leave : Option Label

namespace Frame

def draw (callee : Routine) : Fresh Frame := do
  let answer ← Fresh.work
  let slots ← callee.inputs.mapM fun _ => Fresh.work
  let locals ← (localVars callee).mapM fun _ => Fresh.work
  let places ← (localLabels callee).mapM fun _ => Fresh.label
  if jumpsToExit callee then
    let leave ← Fresh.label
    return ⟨answer, slots, locals, places, some leave⟩
  else
    return ⟨answer, slots, locals, places, none⟩

def renameVar (frame : Frame) (callee : Routine) : Variable → Variable :=
  rename ((.result, frame.answer) :: callee.inputs.zip frame.slots ++
    (localVars callee).zip frame.locals)

def renameLabel (frame : Frame) (callee : Routine) : Label → Label :=
  rename ((localLabels callee).zip frame.places)

/-- Where a jump goes when `EXIT` is the end of the copy. -/
def redirect (frame : Frame) (target : Label) : Label :=
  if target = .exit then frame.leave.getD .exit else target

def copyOf (frame : Frame) (callee : Routine) (instruction : Instruction) : Instruction :=
  let copy := (instruction.mapVars (frame.renameVar callee)).mapLabels (frame.renameLabel callee)
  { copy with operation := copy.operation.mapTarget frame.redirect }

/-- Sets the result and the variables that are not inputs to 0. -/
def clear (frame : Frame) : List Instruction :=
  (frame.answer :: frame.locals).map fun name => plain (zeroVariable name)

def bindings (frame : Frame) (arguments : List Argument) : List Instruction :=
  (frame.slots.zip arguments).map fun (slot, argument) => plain (bind slot argument)

/-- The use of the result, which is also the end of the copy. -/
def tail (frame : Frame) (subject : Variable) (use : Use) : Instruction :=
  labeled (frame.leave.getD .empty) (use.operation subject frame.answer)

/-- The instructions that a call of a function stands for. -/
def block (frame : Frame) (subject : Variable) (callee : Routine) (arguments : List Argument)
    (use : Use) : List Instruction :=
  plain (neutral subject) :: (frame.clear ++ frame.bindings arguments ++
    callee.instructions.map (frame.copyOf callee) ++ [frame.tail subject use])

end Frame

/-- The instructions that a composition stands for. -/
def inline (registry : Registry) (subject : Variable) (call : Call) (use : Use) :
    Fresh (List Instruction) :=
  match registry[call.function]? with
  | none => throw (.unknownFunction call.function)
  | some callee =>
      if callee.inputs.length = call.arguments.length then
        return (← Frame.draw callee).block subject callee call.arguments use
      else
        throw (.argumentCount call.function callee.inputs.length call.arguments.length)

end CounterMachine.Inlining
