import CounterMachine.Proofs.Drawing
import Mathlib.Logic.Equiv.Basic
set_option autoImplicit false

/-!
# Permutations of names

Names that were drawn can be exchanged for others. A permutation acts on the labels and on the variables; it
leaves alone the empty label, `EXIT`, the result and the inputs, which are never drawn. A permutation that is
right for the names in use can be changed to take further names to any others that are not in use.
-/

namespace CounterMachine

/-- A permutation of the named labels and of the work variables. -/
structure Permutation where
  labels : Equiv.Perm Label
  vars : Equiv.Perm Variable
  labels_unnamed : ∀ {label}, label.isNamed = false → labels label = label
  vars_known : ∀ {name}, name.isWork = false → vars name = name

/-- A permutation can be changed outside the elements in use, to take fresh elements to fresh ones. -/
theorem exists_perm_extending {α : Type} [DecidableEq α] (permutation : Equiv.Perm α) {used : Set α}
    {sources targets : List α} (lengths : sources.length = targets.length) (distinct : sources.Nodup)
    (alsoDistinct : targets.Nodup) (fresh : ∀ source ∈ sources, source ∉ used)
    (alsoFresh : ∀ target ∈ targets, ∀ element ∈ used, permutation element ≠ target) :
    ∃ extended : Equiv.Perm α, (∀ element ∈ used, extended element = permutation element) ∧
      sources.map extended = targets := by
  induction sources generalizing targets permutation used with
  | nil =>
      refine ⟨permutation, fun _ _ => rfl, ?_⟩
      exact (List.length_eq_zero_iff.mp lengths.symm).symm
  | cons source sources ih =>
      cases targets with
      | nil => cases lengths
      | cons target targets =>
          obtain ⟨notLater, distinct⟩ := List.nodup_cons.mp distinct
          obtain ⟨targetNotLater, alsoDistinct⟩ := List.nodup_cons.mp alsoDistinct
          -- The images of the source and of what is taken to the target change places.
          let swapped := permutation.trans (Equiv.swap (permutation source) target)
          have atSource : swapped source = target := Equiv.swap_apply_left _ _
          have atUsed : ∀ element ∈ used, swapped element = permutation element := by
            intro element inUse
            refine Equiv.swap_apply_of_ne_of_ne ?_ (alsoFresh target List.mem_cons_self element inUse)
            intro same
            exact fresh source List.mem_cons_self (permutation.injective same ▸ inUse)
          obtain ⟨extended, kept, mapped⟩ := @ih swapped (insert source used) targets
            (by simpa using lengths) distinct alsoDistinct
            (by
              intro other member taken
              rcases taken with same | inUse
              · exact notLater (same ▸ member)
              · exact fresh other (List.mem_cons_of_mem _ member) inUse)
            (by
              intro other member element taken
              rcases taken with same | inUse
              · rw [same, atSource]
                intro equal
                exact targetNotLater (equal ▸ member)
              · rw [atUsed element inUse]
                exact alsoFresh other (List.mem_cons_of_mem _ member) element inUse)
          refine ⟨extended, ?_, ?_⟩
          · intro element inUse
            rw [kept element (.inr inUse), atUsed element inUse]
          · rw [List.map_cons, mapped, kept source (.inl rfl), atSource]

namespace Permutation

/-- Every name stays as it is. -/
def identity : Permutation :=
  ⟨Equiv.refl _, Equiv.refl _, fun _ => rfl, fun _ => rfl⟩

variable (permutation : Permutation)

theorem isNamed_labels (label : Label) : (permutation.labels label).isNamed = label.isNamed := by
  cases named : label.isNamed with
  | false => rw [permutation.labels_unnamed named, named]
  | true =>
      cases image : (permutation.labels label).isNamed with
      | true => rfl
      | false =>
          have same := permutation.labels.injective (permutation.labels_unnamed image)
          rw [same, named] at image
          cases image

theorem isWork_vars (name : Variable) : (permutation.vars name).isWork = name.isWork := by
  cases work : name.isWork with
  | false => rw [permutation.vars_known work, work]
  | true =>
      cases image : (permutation.vars name).isWork with
      | true => rfl
      | false =>
          have same := permutation.vars.injective (permutation.vars_known image)
          rw [same, work] at image
          cases image

@[simp] theorem labels_empty : permutation.labels .empty = .empty :=
  permutation.labels_unnamed rfl

@[simp] theorem labels_exit : permutation.labels .exit = .exit :=
  permutation.labels_unnamed rfl

/-- The image of a name. -/
def name : Name → Name
  | .label label => .label (permutation.labels label)
  | .var name => .var (permutation.vars name)

/-- An operation with other names. -/
def operation (operation : Operation) : Operation :=
  (operation.mapVars permutation.vars).mapTarget permutation.labels

/-- An instruction with other names. -/
def instruction (instruction : Instruction) : Instruction :=
  ⟨permutation.labels instruction.label, permutation.operation instruction.operation⟩

@[simp] theorem instruction_plain (operation : Operation) :
    permutation.instruction (.plain operation) = .plain (permutation.operation operation) := by
  rw [instruction, Instruction.plain, permutation.labels_empty]
  rfl

@[simp] theorem instruction_labeled (label : Label) (operation : Operation) :
    permutation.instruction (.labeled label operation) =
      .labeled (permutation.labels label) (permutation.operation operation) :=
  rfl

theorem name_identity (name : Name) : identity.name name = name := by
  cases name <;> rfl

theorem instruction_identity (instruction : Instruction) : identity.instruction instruction = instruction := by
  have operation : (instruction.operation.mapVars id).mapTarget id = instruction.operation := by
    rw [Operation.mapVars_id, Operation.mapTarget_id]
  exact congrArg (Instruction.mk instruction.label) operation

/-- A draft with other names. -/
def draft (draft : Draft) : Draft :=
  ⟨draft.labels.map permutation.labels, draft.works.map permutation.vars⟩

theorem name_mem_draft {draft : Draft} {name : Name} (drawn : name ∈ draft.names) :
    permutation.name name ∈ (permutation.draft draft).names := by
  cases name with
  | label label =>
      exact Draft.label_mem_names.mpr (List.mem_map_of_mem (Draft.label_mem_names.mp drawn))
  | var name => exact Draft.var_mem_names.mpr (List.mem_map_of_mem (Draft.var_mem_names.mp drawn))

theorem mem_names_instruction {instruction : Instruction} {name : Name} :
    permutation.name name ∈ (permutation.instruction instruction).names ↔ name ∈ instruction.names := by
  cases name with
  | label label =>
      simp only [Permutation.name, Instruction.label_mem_names, Permutation.instruction,
        Instruction.target?, operation, Operation.target?_mapTarget, Operation.target?_mapVars,
        permutation.isNamed_labels, EmbeddingLike.apply_eq_iff_eq, Option.map_eq_some_iff,
        exists_eq_right]
  | var name =>
      simp only [Permutation.name, Instruction.var_mem_names, Permutation.instruction, operation,
        Operation.vars_mapTarget, Operation.vars_mapVars, List.mem_map, EmbeddingLike.apply_eq_iff_eq,
        exists_eq_right]

@[simp] theorem isBasic_instruction (instruction : Instruction) :
    (permutation.instruction instruction).isBasic = instruction.isBasic := by
  simp [Instruction.isBasic, Instruction.kind, Permutation.instruction, operation]

theorem name_mem_namesIn {code : List Instruction} {name : Name} (occurs : name ∈ namesIn code) :
    permutation.name name ∈ namesIn (code.map permutation.instruction) := by
  obtain ⟨instruction, member, occurs⟩ := occurs
  exact ⟨_, List.mem_map_of_mem member, permutation.mem_names_instruction.mpr occurs⟩

variable {permutation}

theorem instruction_congr {other : Permutation} {instruction : Instruction}
    (same : ∀ name ∈ instruction.names, other.name name = permutation.name name) :
    other.instruction instruction = permutation.instruction instruction := by
  have sameLabel : ∀ label, (label.isNamed = true → .label label ∈ instruction.names) →
      other.labels label = permutation.labels label := by
    intro label occurs
    cases named : label.isNamed with
    | false => rw [other.labels_unnamed named, permutation.labels_unnamed named]
    | true => exact Name.label.inj (same (.label label) (occurs named))
  have sameVars : ∀ name ∈ instruction.operation.vars, other.vars name = permutation.vars name := by
    intro name occurs
    exact Name.var.inj (same (.var name) (Instruction.var_mem_names.mpr occurs))
  have here := sameLabel instruction.label fun named =>
    Instruction.label_mem_names.mpr ⟨named, .inl rfl⟩
  rw [Permutation.instruction, Permutation.instruction, here, operation, operation,
    Operation.mapVars_congr sameVars]
  congr 1
  apply Operation.mapTarget_congr
  intro target jumps
  rw [Operation.target?_mapVars] at jumps
  exact sameLabel target fun named => Instruction.label_mem_names.mpr ⟨named, .inr jumps⟩

theorem map_instruction_congr {other : Permutation} {code : List Instruction}
    (same : ∀ name ∈ namesIn code, other.name name = permutation.name name) :
    code.map other.instruction = code.map permutation.instruction := by
  apply List.map_congr_left
  intro instruction member
  exact instruction_congr fun name occurs => same name ⟨instruction, member, occurs⟩

/-- A permutation can be changed outside the names in use, to take one draft to another. -/
theorem extend {used : Set Name} {source target : Draft}
    (labels : source.labels.length = target.labels.length)
    (works : source.works.length = target.works.length) (avoids : source.Avoids used)
    (alsoAvoids : target.Avoids (permutation.name '' used)) :
    ∃ extended : Permutation, (∀ name ∈ used, extended.name name = permutation.name name) ∧
      extended.draft source = target := by
  obtain ⟨onLabels, labelsKept, labelsMapped⟩ := @exists_perm_extending _ _ permutation.labels
    { label | label.isNamed = false ∨ .label label ∈ used } _ _ labels avoids.labels alsoAvoids.labels
    (by
      intro label member taken
      rcases taken with unnamed | inUse
      · rw [avoids.named label member] at unnamed
        cases unnamed
      · exact avoids.unused (.label label) (Draft.label_mem_names.mpr member) inUse)
    (by
      intro label member other taken same
      rcases taken with unnamed | inUse
      · rw [← permutation.isNamed_labels, same, alsoAvoids.named label member] at unnamed
        cases unnamed
      · refine alsoAvoids.unused (.label label) (Draft.label_mem_names.mpr member) ⟨_, inUse, ?_⟩
        rw [name, same])
  obtain ⟨onVars, varsKept, varsMapped⟩ := @exists_perm_extending _ _ permutation.vars
    { name | name.isWork = false ∨ .var name ∈ used } _ _ works avoids.works alsoAvoids.works
    (by
      intro name member taken
      rcases taken with known | inUse
      · rw [avoids.work name member] at known
        cases known
      · exact avoids.unused (.var name) (Draft.var_mem_names.mpr member) inUse)
    (by
      intro name member other taken same
      rcases taken with known | inUse
      · rw [← permutation.isWork_vars, same, alsoAvoids.work name member] at known
        cases known
      · refine alsoAvoids.unused (.var name) (Draft.var_mem_names.mpr member) ⟨_, inUse, ?_⟩
        rw [Permutation.name, same])
  refine ⟨⟨onLabels, onVars, ?_, ?_⟩, ?_, ?_⟩
  · intro label unnamed
    rw [labelsKept label (.inl unnamed), permutation.labels_unnamed unnamed]
  · intro name known
    rw [varsKept name (.inl known), permutation.vars_known known]
  · intro name inUse
    cases name with
    | label label => exact congrArg Name.label (labelsKept label (.inr inUse))
    | var name => exact congrArg Name.var (varsKept name (.inr inUse))
  · rw [draft, labelsMapped, varsMapped]

end Permutation

end CounterMachine
