import CounterMachine.Machine.Outcome
import CounterMachine.Variable
set_option autoImplicit false

/-!
# Supplies of names

Expansion needs labels and work variables that are not in use. A supply counts, for labels and for work
variables apart, the last index that it has given out, and gives out the next index that is not taken.
Indices are below `2 ^ 32`, so a supply can come to its end.
-/

namespace CounterMachine

/-- The last indices that were given out. -/
structure Names where
  label : UInt32 := 0
  work : UInt32 := 0
deriving DecidableEq

namespace Names

/-- The least index above `last` that is not taken, if it is among the next `tries` ones. -/
def nextFree? (taken : UInt32 → Bool) : (tries : Nat) → (last : UInt32) → Option UInt32
  | 0, _ => none
  | tries + 1, last =>
      if last.toNat + 1 < UInt32.size then
        if taken (last + 1) then nextFree? taken tries (last + 1) else some (last + 1)
      else none

/-- A label that is not taken, with the supply and the taken labels after it was given out. One of any
`taken.size + 1` labels is free. -/
def freshLabel? (names : Names) (taken : LabelSet) : Option (Label × Names × LabelSet) :=
  (nextFree? (fun index => taken.contains (.named index)) (taken.size + 1) names.label).map
    fun index => (.named index, { names with label := index }, taken.insert (.named index))

/-- A work variable that is not taken, with the supply and the taken variables after it was given out. -/
def freshWork? (names : Names) (taken : VariableSet) : Option (Variable × Names × VariableSet) :=
  (nextFree? (fun index => taken.contains (.work index)) (taken.size + 1) names.work).map
    fun index => (.work index, { names with work := index }, taken.insert (.work index))

/-! ## Counting on to free names

A supply can look for a free name by counting on: each pass goes to the next index and tries to take its
name, and a name that is taken already leads to another pass. The number of passes is not bounded
beforehand. The search ends at a free name or where the count would go beyond the last index. -/

/-- Counts on from `last` to an index that is not taken; none if the count comes to the end of the indices. -/
def countOn (taken : UInt32 → Bool) (last : UInt32) : Option UInt32 :=
  if _room : last.toNat + 1 < UInt32.size then
    if taken (last + 1) then countOn taken (last + 1) else some (last + 1)
  else none
termination_by UInt32.size - last.toNat
decreasing_by
  rw [UInt32.toNat_add]
  change UInt32.size - (last.toNat + 1) % UInt32.size < UInt32.size - last.toNat
  rw [Nat.mod_eq_of_lt _room]
  omega

/-- A free label that is counted to, with the supply and the taken labels after it was taken. -/
def drawLabel (names : Names) (taken : LabelSet) : Option (Label × Names × LabelSet) :=
  (countOn (fun index => taken.contains (.named index)) names.label).map
    fun index => (.named index, { names with label := index }, taken.insert (.named index))

/-- A free work variable that is counted to, with the supply and the taken variables after it was taken. -/
def drawWork (names : Names) (taken : VariableSet) : Option (Variable × Names × VariableSet) :=
  (countOn (fun index => taken.contains (.work index)) names.work).map
    fun index => (.work index, { names with work := index }, taken.insert (.work index))

end Names

/-! ## Drawing fresh names

Expansion draws labels and work variables that are not taken; a name that was drawn is taken from then on. -/

/-- A supply of names together with the names that are taken. -/
structure Supply where
  names : Names
  labels : LabelSet
  vars : VariableSet

/-- A computation that draws names. If it fails, no name has been drawn. -/
abbrev Fresh := StateT Supply (Except Failure)

namespace Fresh

def label : Fresh Label := fun supply =>
  match supply.names.freshLabel? supply.labels with
  | some (label, names, labels) => .ok (label, { supply with names, labels })
  | none => .error .namesExhausted

def work : Fresh Variable := fun supply =>
  match supply.names.freshWork? supply.vars with
  | some (name, names, vars) => .ok (name, { supply with names, vars })
  | none => .error .namesExhausted

end Fresh

end CounterMachine
