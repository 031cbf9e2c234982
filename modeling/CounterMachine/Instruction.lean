import CounterMachine.Call
import CounterMachine.Kind
import CounterMachine.Label
set_option autoImplicit false

/-!
# Instructions

An instruction is an operation together with the label that leads to it. An operation carries exactly the
operands of its kind; an unconditional jump has no variable of its own.
-/

namespace CounterMachine

/-- What an instruction does. -/
inductive Operation where
  | increase (subject : Variable)
  | decrease (subject : Variable)
  | jumpNotZero (subject : Variable) (target : Label)
  | neutral (subject : Variable)
  | zeroVariable (subject : Variable)
  | gotoLabel (target : Label)
  | constantAssignment (subject : Variable) (constant : UInt64)
  | assignment (subject source : Variable)
  | jumpZero (subject : Variable) (target : Label)
  | jumpEqualConstant (subject : Variable) (constant : UInt64) (target : Label)
  | jumpEqualVariable (subject other : Variable) (target : Label)
  | quote (subject : Variable) (call : Call)
  | jumpEqualFunction (subject : Variable) (call : Call) (target : Label)
deriving DecidableEq

/-- An operation with the label attached to it. -/
structure Instruction where
  label : Label := .empty
  operation : Operation
deriving DecidableEq

namespace Operation

def kind : Operation → Kind
  | increase _ => .increase
  | decrease _ => .decrease
  | jumpNotZero _ _ => .jumpNotZero
  | neutral _ => .neutral
  | zeroVariable _ => .zeroVariable
  | gotoLabel _ => .gotoLabel
  | constantAssignment _ _ => .constantAssignment
  | assignment _ _ => .assignment
  | jumpZero _ _ => .jumpZero
  | jumpEqualConstant _ _ _ => .jumpEqualConstant
  | jumpEqualVariable _ _ _ => .jumpEqualVariable
  | quote _ _ => .quote
  | jumpEqualFunction _ _ _ => .jumpEqualFunction

/-- The variable that the operation is about. -/
def subject? : Operation → Option Variable
  | increase subject | decrease subject | jumpNotZero subject _ | neutral subject
  | zeroVariable subject | constantAssignment subject _ | assignment subject _
  | jumpZero subject _ | jumpEqualConstant subject _ _ | jumpEqualVariable subject _ _
  | quote subject _ | jumpEqualFunction subject _ _ => some subject
  | gotoLabel _ => none

/-- The label that the operation may jump to. -/
def target? : Operation → Option Label
  | jumpNotZero _ target | gotoLabel target | jumpZero _ target | jumpEqualConstant _ _ target
  | jumpEqualVariable _ _ target | jumpEqualFunction _ _ target => some target
  | increase _ | decrease _ | neutral _ | zeroVariable _ | constantAssignment _ _ | assignment _ _
  | quote _ _ => none

/-- The second variable of an assignment or a comparison. -/
def source? : Operation → Option Variable
  | assignment _ source => some source
  | jumpEqualVariable _ other _ => some other
  | _ => none

def constant? : Operation → Option UInt64
  | constantAssignment _ constant => some constant
  | jumpEqualConstant _ constant _ => some constant
  | _ => none

def call? : Operation → Option Call
  | quote _ call => some call
  | jumpEqualFunction _ call _ => some call
  | _ => none

/-- Every variable that is read or written, with repetitions. -/
def vars : Operation → List Variable
  | increase subject | decrease subject | jumpNotZero subject _ | neutral subject
  | zeroVariable subject | constantAssignment subject _ | jumpZero subject _
  | jumpEqualConstant subject _ _ => [subject]
  | gotoLabel _ => []
  | assignment subject source => [subject, source]
  | jumpEqualVariable subject other _ => [subject, other]
  | quote subject call => subject :: call.vars
  | jumpEqualFunction subject call _ => subject :: call.vars

def mapVars (rename : Variable → Variable) : Operation → Operation
  | increase subject => increase (rename subject)
  | decrease subject => decrease (rename subject)
  | jumpNotZero subject target => jumpNotZero (rename subject) target
  | neutral subject => neutral (rename subject)
  | zeroVariable subject => zeroVariable (rename subject)
  | gotoLabel target => gotoLabel target
  | constantAssignment subject constant => constantAssignment (rename subject) constant
  | assignment subject source => assignment (rename subject) (rename source)
  | jumpZero subject target => jumpZero (rename subject) target
  | jumpEqualConstant subject constant target => jumpEqualConstant (rename subject) constant target
  | jumpEqualVariable subject other target =>
      jumpEqualVariable (rename subject) (rename other) target
  | quote subject call => quote (rename subject) (call.mapVars rename)
  | jumpEqualFunction subject call target =>
      jumpEqualFunction (rename subject) (call.mapVars rename) target

def mapTarget (rename : Label → Label) : Operation → Operation
  | jumpNotZero subject target => jumpNotZero subject (rename target)
  | gotoLabel target => gotoLabel (rename target)
  | jumpZero subject target => jumpZero subject (rename target)
  | jumpEqualConstant subject constant target =>
      jumpEqualConstant subject constant (rename target)
  | jumpEqualVariable subject other target => jumpEqualVariable subject other (rename target)
  | jumpEqualFunction subject call target => jumpEqualFunction subject call (rename target)
  | operation => operation

/-- The operation in mathematical notation. -/
def render : Operation → String
  | increase subject => subject.render ++ " ← " ++ subject.render ++ " + 1"
  | decrease subject => subject.render ++ " ← " ++ subject.render ++ " - 1"
  | jumpNotZero subject target => "IF " ++ subject.render ++ " ≠ 0 GOTO " ++ target.render
  | neutral subject => subject.render ++ " ← " ++ subject.render
  | zeroVariable subject => subject.render ++ " ← 0"
  | gotoLabel target => "GOTO " ++ target.render
  | constantAssignment subject constant => subject.render ++ " ← " ++ constant.toNat.repr
  | assignment subject source => subject.render ++ " ← " ++ source.render
  | jumpZero subject target => "IF " ++ subject.render ++ " = 0 GOTO " ++ target.render
  | jumpEqualConstant subject constant target =>
      "IF " ++ subject.render ++ " = " ++ constant.toNat.repr ++ " GOTO " ++ target.render
  | jumpEqualVariable subject other target =>
      "IF " ++ subject.render ++ " = " ++ other.render ++ " GOTO " ++ target.render
  | quote subject call => subject.render ++ " ← " ++ call.render
  | jumpEqualFunction subject call target =>
      "IF " ++ subject.render ++ " = " ++ call.render ++ " GOTO " ++ target.render

end Operation

namespace Instruction

def plain (operation : Operation) : Instruction :=
  { operation }

def labeled (label : Label) (operation : Operation) : Instruction :=
  { label, operation }

def kind (instruction : Instruction) : Kind :=
  instruction.operation.kind

def isBasic (instruction : Instruction) : Bool :=
  instruction.kind.isBasic

def target? (instruction : Instruction) : Option Label :=
  instruction.operation.target?

def call? (instruction : Instruction) : Option Call :=
  instruction.operation.call?

def vars (instruction : Instruction) : List Variable :=
  instruction.operation.vars

/-- The named labels that occur in an instruction: the attached one, then the target. -/
def namedLabels (instruction : Instruction) : List Label :=
  (instruction.label :: instruction.target?.toList).filter Label.isNamed

def mapVars (rename : Variable → Variable) (instruction : Instruction) : Instruction :=
  { instruction with operation := instruction.operation.mapVars rename }

/-- Renames the attached label and the target of a jump. -/
def mapLabels (rename : Label → Label) (instruction : Instruction) : Instruction :=
  { label := rename instruction.label, operation := instruction.operation.mapTarget rename }

def render (instruction : Instruction) : String :=
  instruction.operation.render

end Instruction

end CounterMachine
