import CounterMachine.Instruction
set_option autoImplicit false

/-!
# Blocks

Each synthetic instruction other than a composition stands for a block of simpler instructions. A block uses
labels and work variables of its own, which are parameters here; its first instruction has no label, so that
it can take the label of the instruction that the block stands for.
-/

namespace CounterMachine.Block

open Instruction Operation

/-- A variable is set to 0 by counting it down. -/
def zero (subject : Variable) (body done : Label) (spare : Variable) : List Instruction :=
  [plain (jumpNotZero subject body),
    plain (increase spare),
    plain (jumpNotZero spare done),
    labeled body (decrease subject),
    plain (jumpNotZero subject body),
    labeled done (neutral subject)]

/-- A jump that is always taken, by a variable that is not 0. -/
def goto (target : Label) (spare : Variable) : List Instruction :=
  [plain (increase spare), plain (jumpNotZero spare target)]

/-- A variable is set to 0, then a work variable counts up to the constant, and its count is moved over. -/
def constant (subject : Variable) (value : UInt64) (pump after : Label) (count : Variable) :
    List Instruction :=
  plain (zeroVariable subject) ::
    List.replicate value.toNat (plain (increase count)) ++ [
    plain (jumpNotZero count pump),
    plain (gotoLabel after),
    labeled pump (decrease count),
    plain (increase subject),
    plain (jumpNotZero count pump),
    labeled after (neutral subject)]

/-- The source is drained into a work variable, which then refills the source and fills the subject. -/
def copy (subject source : Variable) (drain refill done : Label) (store : Variable) :
    List Instruction :=
  [plain (zeroVariable subject),
    plain (jumpNotZero source drain),
    plain (gotoLabel done),
    labeled drain (decrease source),
    plain (increase store),
    plain (jumpNotZero source drain),
    labeled refill (decrease store),
    plain (increase subject),
    plain (increase source),
    plain (jumpNotZero store refill),
    labeled done (neutral subject)]

/-- The jump is skipped if the variable is not 0. -/
def jumpIfZero (subject : Variable) (target skip : Label) : List Instruction :=
  [plain (jumpNotZero subject skip),
    plain (gotoLabel target),
    labeled skip (neutral subject)]

/-- A copy of the variable is counted down as often as the constant says. -/
def jumpIfConstant (subject : Variable) (value : UInt64) (target different : Label)
    (rest : Variable) : List Instruction :=
  plain (assignment rest subject) ::
    (List.replicate value.toNat
      [plain (jumpZero rest different), plain (decrease rest)]).flatten ++ [
    plain (jumpNotZero rest different),
    plain (gotoLabel target),
    labeled different (neutral subject)]

/-- Copies of both variables are counted down together. -/
def jumpIfEqual (subject other : Variable) (target again check different : Label)
    (left right : Variable) : List Instruction :=
  [plain (assignment left subject),
    plain (assignment right other),
    labeled again (jumpZero left check),
    plain (jumpZero right different),
    plain (decrease left),
    plain (decrease right),
    plain (gotoLabel again),
    labeled check (jumpZero right target),
    labeled different (neutral subject)]

end CounterMachine.Block
