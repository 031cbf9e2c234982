import CounterMachine.Derivation.Block
import CounterMachine.Machine.Names
set_option autoImplicit false

/-!
# Expansion rules

Each synthetic instruction other than a composition is replaced by its block, after the labels and the work
variables of the block have been drawn.
-/

namespace CounterMachine.Rules

def zero (subject : Variable) : Fresh (List Instruction) := do
  let body ← Fresh.label
  let done ← Fresh.label
  let spare ← Fresh.work
  return Block.zero subject body done spare

def goto (target : Label) : Fresh (List Instruction) := do
  let spare ← Fresh.work
  return Block.goto target spare

def constant (subject : Variable) (value : UInt64) : Fresh (List Instruction) := do
  let pump ← Fresh.label
  let after ← Fresh.label
  let count ← Fresh.work
  return Block.constant subject value pump after count

/-- Three labels and a work variable for copying a variable. The copy of a variable to itself does nothing
and needs no names. -/
def copy (subject source : Variable) : Fresh (List Instruction) := do
  if subject = source then return [.plain (.neutral subject)]
  let drain ← Fresh.label
  let refill ← Fresh.label
  let done ← Fresh.label
  let store ← Fresh.work
  return Block.copy subject source drain refill done store

def jumpIfZero (subject : Variable) (target : Label) : Fresh (List Instruction) := do
  let skip ← Fresh.label
  return Block.jumpIfZero subject target skip

def jumpIfConstant (subject : Variable) (value : UInt64) (target : Label) :
    Fresh (List Instruction) := do
  let different ← Fresh.label
  let rest ← Fresh.work
  return Block.jumpIfConstant subject value target different rest

def jumpIfEqual (subject other : Variable) (target : Label) : Fresh (List Instruction) := do
  let again ← Fresh.label
  let check ← Fresh.label
  let different ← Fresh.label
  let left ← Fresh.work
  let right ← Fresh.work
  return Block.jumpIfEqual subject other target again check different left right

end CounterMachine.Rules
