import CounterMachine.Proofs.Fuel
import CounterMachine.Proofs.Histories
set_option autoImplicit false

/-!
# Courses

A course is one step after another, taken whatever the steps come to. It depends on the code, the labels and
the variables of the routine it starts with. Whatever was done to a routine before, its labels lead to the
first places where they are attached now, and its variables are those of its definition and of its code.
-/

namespace CounterMachine

/-! ## Labels and source variables -/

/-- No position is noted for the empty label. -/
theorem Routine.empty_labelPositions (routine : Routine) : routine.labelPositions[Label.empty]? = none := by
  simp only [labelPositions]
  suffices noted : ∀ (code : List (Instruction × Nat)) (positions : Std.ExtTreeMap Label Nat),
      positions[Label.empty]? = none →
      (code.foldl (fun positions place =>
        if place.1.label.isEmpty then positions
        else positions.insertIfNew place.1.label place.2) positions)[Label.empty]? = none from
    noted _ ∅ Std.ExtTreeMap.getElem?_empty
  intro code
  induction code with
  | nil => exact fun _ absent => absent
  | cons place rest ih =>
      intro positions absent
      apply ih
      by_cases empty : place.1.label = .empty
      · simpa [empty, Label.isEmpty] using absent
      · have filled : place.1.label.isEmpty = false := by
          cases attached : place.1.label with
          | empty => exact (empty attached).elim
          | exit | named => rfl
        simpa [filled, empty] using absent

theorem Routine.labelPositions_eq_some {routine : Routine} {label : Label} {position : Nat} :
    routine.labelPositions[label]? = some position ↔ label ≠ .empty ∧
      routine.instructions.findIdx? (fun instruction => instruction.label = label) = some position := by
  by_cases empty : label = .empty
  · simp [empty, routine.empty_labelPositions]
  · simp [empty, routine.getElem?_labelPositions empty]

/-- What an action leaves in line with the definition and with the current code. -/
structure Routine.InLine (definition : Definition) (routine : Routine) : Prop where
  sourceVars : routine.sourceVars = definition.vars
  labels : routine.state.labels = routine.labelPositions

namespace Routine.InLine

variable {definition : Definition} {routine next : Routine}

theorem sameCode (inLine : routine.InLine definition) (same : routine.SameCode next) :
    next.InLine definition where
  sourceVars := same.sourceVars.trans inLine.sourceVars
  labels := (same.labels.trans inLine.labels).trans same.labelPositions.symm

theorem refresh (inLine : routine.InLine definition) {changed : Routine}
    (kept : changed.sourceVars = routine.sourceVars) : changed.refresh.InLine definition where
  sourceVars := kept.trans inLine.sourceVars
  labels := rfl

theorem expandSelected (inLine : routine.InLine definition) {registry : Registry} {rounds : Nat}
    {selected : Nat → Bool} (expanded : routine.expandSelected registry rounds selected = .ok next) :
    next.InLine definition := by
  obtain ⟨_, _, _, _, _, _, _, rfl⟩ := expandSelected_ok expanded
  exact inLine.refresh rfl

theorem collapse (inLine : routine.InLine definition) : routine.collapse.InLine definition := by
  unfold Routine.collapse
  dsimp only
  split
  · exact inLine
  · exact inLine.refresh rfl

theorem collapseSingle (inLine : routine.InLine definition) {key : String}
    (collapsed : routine.collapseSingle key = .ok next) : next.InLine definition := by
  unfold Routine.collapseSingle at collapsed
  split at collapsed
  · cases collapsed
  · split at collapsed <;> cases collapsed
    · exact inLine
    · exact inLine.refresh rfl

theorem act (inLine : routine.InLine definition) (registry : Registry) (action : Action) :
    (routine.act registry action).InLine definition :=
  act_keeps inLine sameCode (fun before expanded => before.expandSelected expanded) collapse
    (fun before collapsed => before.collapseSingle collapsed) action

end Routine.InLine

theorem Definition.Becomes.inLine {definition : Definition} {allowed : Action → Prop} {routine : Routine}
    (becomes : definition.Becomes allowed routine) : routine.InLine definition := by
  induction becomes with
  | source => exact ⟨rfl, rfl⟩
  | act _ _ registry ih => exact ih.act registry _

/-- The variables at the start of a run are those of the definition and of the current code. -/
theorem Routine.InLine.mem_varsInUse {definition : Definition} {routine : Routine}
    (inLine : routine.InLine definition) {name : Variable} :
    name ∈ routine.varsInUse ↔
      name ∈ definition.vars ∨ ∃ instruction ∈ routine.instructions, name ∈ instruction.vars := by
  simp only [varsInUse, inLine.sourceVars, Std.ExtTreeSet.mem_insertMany_list, List.contains_iff_mem,
    List.mem_flatMap]

/-! ## Steps in a row -/

namespace Routine

/-- Takes one step after another, whatever they come to; each has fuel of its own. The outcomes are returned
in order. -/
def course (registry : Registry) : (fuels : List Nat) → Routine → Routine × List (Outcome Step)
  | [], routine => (routine, [])
  | fuel :: rest, routine =>
      let (next, outcome) := routine.step registry fuel
      let (last, outcomes) := next.course registry rest
      (last, outcome :: outcomes)

@[simp] theorem course_nil (registry : Registry) (routine : Routine) :
    routine.course registry [] = (routine, []) :=
  rfl

@[simp] theorem course_cons (registry : Registry) (fuel : Nat) (rest : List Nat) (routine : Routine) :
    routine.course registry (fuel :: rest) =
      (((routine.step registry fuel).1.course registry rest).1,
        (routine.step registry fuel).2 :: ((routine.step registry fuel).1.course registry rest).2) :=
  rfl

end Routine

end CounterMachine
