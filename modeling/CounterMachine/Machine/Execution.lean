import CounterMachine.Instruction
import CounterMachine.Machine.Outcome
import CounterMachine.Machine.State
set_option autoImplicit false

/-!
# Execution of one instruction

An instruction reads and writes values, costs cycles, and says where the run goes on. Counters hold numbers
below `2 ^ 64`: the largest one cannot be increased and 0 cannot be decreased. What a call yields is a
parameter here.
-/

namespace CounterMachine

/-- Where a run goes on after an instruction. -/
inductive Flow where
  | next
  | goto (label : Label)
deriving DecidableEq

/-- The value of a call and the cycles that were spent on it. -/
structure Reply where
  value : UInt64
  cycles : UInt64
deriving DecidableEq

/-- What the execution of an instruction brings about. -/
structure Effect where
  flow : Flow
  cycles : UInt64
  values : Values

/-- One more, but not above the largest value. -/
def increased (value : UInt64) : UInt64 :=
  if value.toNat + 1 < UInt64.size then value + 1 else value

/-- One less, but not below 0. -/
def decreased (value : UInt64) : UInt64 :=
  if value = 0 then 0 else value - 1

def Flow.jumpIf (condition : Bool) (target : Label) : Flow :=
  if condition then goto target else next

namespace Operation

/-- The values and the flow after an operation, and the cycles spent on its call. -/
def apply (invoke : Call → Outcome Reply) (values : Values) : Operation → Outcome Effect
  | increase subject =>
      .done ⟨.next, 0, values.insert subject (increased (values.value subject))⟩
  | decrease subject =>
      .done ⟨.next, 0, values.insert subject (decreased (values.value subject))⟩
  | jumpNotZero subject target => .done ⟨.jumpIf (values.value subject ≠ 0) target, 0, values⟩
  | neutral _ => .done ⟨.next, 0, values⟩
  | zeroVariable subject => .done ⟨.next, 0, values.insert subject 0⟩
  | gotoLabel target => .done ⟨.goto target, 0, values⟩
  | constantAssignment subject constant => .done ⟨.next, 0, values.insert subject constant⟩
  | assignment subject source => .done ⟨.next, 0, values.insert subject (values.value source)⟩
  | jumpZero subject target => .done ⟨.jumpIf (values.value subject = 0) target, 0, values⟩
  | jumpEqualConstant subject constant target =>
      .done ⟨.jumpIf (values.value subject = constant) target, 0, values⟩
  | jumpEqualVariable subject other target =>
      .done ⟨.jumpIf (values.value subject = values.value other) target, 0, values⟩
  | quote subject call =>
      (invoke call).map fun reply => ⟨.next, reply.cycles, values.insert subject reply.value⟩
  | jumpEqualFunction subject call target =>
      (invoke call).map fun reply =>
        ⟨.jumpIf (values.value subject = reply.value) target, reply.cycles, values⟩

/-- Executes an operation: the cycles of its kind are added to those of its call. -/
def execute (invoke : Call → Outcome Reply) (values : Values) (operation : Operation) :
    Outcome Effect :=
  (operation.apply invoke values).map fun effect =>
    { effect with cycles := UInt64.ofNat operation.kind.cycles + effect.cycles }

end Operation

/-- The position where a run goes on after the instruction at a position, nothing if it ends by a jump to
`EXIT`. A jump without a label goes to the next instruction. -/
def State.destination (state : State) (position : Nat) : Flow → Except Failure (Option Nat)
  | .next | .goto .empty => .ok (some (position + 1))
  | .goto .exit => .ok none
  | .goto (.named index) =>
      match state.resolve? (.named index) with
      | some next => .ok (some next)
      | none => .error (.undefinedLabel (.named index) position)

end CounterMachine
