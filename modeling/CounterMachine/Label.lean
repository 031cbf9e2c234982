import CounterMachine.Text.Decimal
import Std.Data.ExtTreeSet
set_option autoImplicit false

/-!
# Labels

A label names a place to jump to. `EXIT` ends the running function and is not the name of a place; named
labels are `L0, L1, …`. The empty label stands for the absence of a label. Listings put the empty label
first, then `EXIT`, then the named labels by number.
-/

namespace CounterMachine

/-- The label of an instruction or the target of a jump. -/
inductive Label where
  | empty
  | exit
  | named (index : UInt32)
deriving DecidableEq

namespace Label

/-- The place of a label in every listing. -/
def rank : Label → Nat
  | empty => 0
  | exit => 1
  | named index => 2 + index.toNat

theorem rank_injective {left right : Label} (same : left.rank = right.rank) : left = right := by
  cases left <;> cases right <;>
    simp only [rank, named.injEq, reduceCtorEq, ← UInt32.toNat_inj] at same ⊢ <;> omega

instance : Ord Label where
  compare := compareOn rank

instance : Std.TransOrd Label :=
  inferInstanceAs (Std.TransCmp (compareOn rank))

instance : Std.LawfulEqOrd Label where
  eq_of_compare same := rank_injective (Std.LawfulEqOrd.eq_of_compare same)

def isEmpty : Label → Bool
  | empty => true
  | _ => false

def isExit : Label → Bool
  | exit => true
  | _ => false

def isNamed : Label → Bool
  | named _ => true
  | _ => false

/-- The written name; nothing for the empty label. -/
def render : Label → String
  | empty => ""
  | exit => "EXIT"
  | named index => "L" ++ index.toNat.repr

/-- Reads `EXIT` in any case of its letters, or `L` followed by the digits of an index. -/
def read? (text : List Char) : Option Label :=
  if text.map Char.toUpper = ['E', 'X', 'I', 'T'] then some exit
  else match text with
    | 'L' :: digits => (Text.Decimal.index? digits).map named
    | _ => none

end Label

/-- A set of labels, listed in their order. -/
abbrev LabelSet := Std.ExtTreeSet Label

end CounterMachine
