import CounterMachine.Text.Decimal
import Std.Data.ExtTreeSet
set_option autoImplicit false

/-!
# Variables

A machine has one result variable `y`, inputs `x1, x2, …` and work variables `z1, z2, …`. They are listed
with the result first, then the inputs by index, then the work variables by index. The index 0 has no
written form that can be read back.
-/

namespace CounterMachine

/-- A variable of a machine. -/
inductive Variable where
  | result
  | input (index : UInt32)
  | work (index : UInt32)
deriving DecidableEq

namespace Variable

/-- The place of a variable in every listing: the result, the inputs, the work variables. -/
def rank : Variable → Nat
  | result => 0
  | input index => UInt32.size + index.toNat
  | work index => 2 * UInt32.size + index.toNat

theorem rank_injective {left right : Variable} (same : left.rank = right.rank) : left = right := by
  cases left <;> cases right <;>
    simp only [rank, input.injEq, work.injEq, reduceCtorEq, ← UInt32.toNat_inj] at same ⊢ <;>
    grind [UInt32.toNat_lt]

instance : Ord Variable where
  compare := compareOn rank

instance : Std.TransOrd Variable :=
  inferInstanceAs (Std.TransCmp (compareOn rank))

instance : Std.LawfulEqOrd Variable where
  eq_of_compare same := rank_injective (Std.LawfulEqOrd.eq_of_compare same)

/-- The number after the letter; 0 for the result. -/
def index : Variable → UInt32
  | result => 0
  | input index | work index => index

def isResult : Variable → Bool
  | result => true
  | _ => false

def isInput : Variable → Bool
  | input _ => true
  | _ => false

def isWork : Variable → Bool
  | work _ => true
  | _ => false

def render : Variable → String
  | result => "y"
  | input index => "x" ++ index.toNat.repr
  | work index => "z" ++ index.toNat.repr

/-- Reads `y`, or `x` or `z` followed by the digits of an index above 0. -/
def read? : List Char → Option Variable
  | ['y'] => some result
  | 'x' :: digits => ((Text.Decimal.index? digits).filter (· ≠ 0)).map input
  | 'z' :: digits => ((Text.Decimal.index? digits).filter (· ≠ 0)).map work
  | _ => none

end Variable

/-- A set of variables, listed in their order. -/
abbrev VariableSet := Std.ExtTreeSet Variable

end CounterMachine
