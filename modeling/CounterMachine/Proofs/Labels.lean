import CounterMachine.Proofs.Names
import Mathlib.Data.List.Nodup
set_option autoImplicit false

/-!
# Attached labels

Code resolves its labels if no named label is attached twice, if `EXIT` is not attached, and if every named
target is attached. Such code finds each of its targets at exactly one position.
-/

namespace CounterMachine

/-- The named labels that are attached to some instructions, in order. -/
def attached (code : List Instruction) : List Label :=
  (code.map Instruction.label).filter Label.isNamed

@[simp] theorem attached_nil : attached [] = [] :=
  rfl

theorem attached_cons (instruction : Instruction) (code : List Instruction) :
    attached (instruction :: code) = [instruction.label].filter Label.isNamed ++ attached code := by
  simp [attached, List.filter_cons]
  split <;> rfl

@[simp] theorem attached_append (left right : List Instruction) :
    attached (left ++ right) = attached left ++ attached right := by
  simp [attached]

theorem mem_attached {code : List Instruction} {label : Label} :
    label ∈ attached code ↔
      label.isNamed = true ∧ ∃ instruction ∈ code, instruction.label = label := by
  simp [attached, and_comm]

theorem attached_subset_names {code : List Instruction} {label : Label}
    (member : label ∈ attached code) : .label label ∈ namesIn code := by
  obtain ⟨named, instruction, inCode, rfl⟩ := mem_attached.mp member
  exact ⟨instruction, inCode, Instruction.label_mem_names.mpr ⟨named, .inl rfl⟩⟩

theorem target_mem_names {code : List Instruction} {instruction : Instruction} {target : Label}
    (member : instruction ∈ code) (jumps : instruction.operation.target? = some target)
    (named : target.isNamed = true) : .label target ∈ namesIn code :=
  ⟨instruction, member, Instruction.label_mem_names.mpr ⟨named, .inr jumps⟩⟩

/-- Every named target leads to one place. -/
structure Resolved (code : List Instruction) : Prop where
  unique : (attached code).Nodup
  inner : ∀ instruction ∈ code, instruction.label ≠ .exit
  defined : ∀ {instruction}, instruction ∈ code → ∀ {target},
    instruction.operation.target? = some target → target.isNamed = true → target ∈ attached code

theorem Resolved.label_mem_names {code : List Instruction} (resolved : Resolved code)
    {label : Label} : .label label ∈ namesIn code ↔ label ∈ attached code := by
  constructor
  · intro found
    obtain ⟨instruction, member, occurs⟩ := found
    obtain ⟨named, rfl | jumps⟩ := Instruction.label_mem_names.mp occurs
    · exact mem_attached.mpr ⟨named, instruction, member, rfl⟩
    · exact resolved.defined member jumps named
  · exact attached_subset_names

theorem place_unique {code : List Instruction} (unique : (attached code).Nodup)
    {left right : Nat} {first second : Instruction} (atLeft : code[left]? = some first)
    (atRight : code[right]? = some second) (same : first.label = second.label)
    (named : first.label.isNamed = true) : left = right := by
  induction code generalizing left right with
  | nil => cases atLeft
  | cons head rest ih =>
      rw [attached_cons] at unique
      obtain ⟨_, restUnique, apart⟩ := List.nodup_append.mp unique
      have conflict : ∀ {instruction : Instruction} {position : Nat},
          rest[position]? = some instruction → instruction.label = head.label →
          head.label.isNamed = true → False := by
        intro instruction position found equal headNamed
        refine apart head.label ?_ head.label ?_ rfl
        · simp [headNamed]
        · exact mem_attached.mpr ⟨headNamed, instruction, List.mem_of_getElem? found, equal⟩
      cases left with
      | zero =>
          cases right with
          | zero => rfl
          | succ right =>
              obtain rfl : head = first := by simpa using atLeft
              exact (conflict (by simpa using atRight) same.symm named).elim
      | succ left =>
          cases right with
          | zero =>
              obtain rfl : head = second := by simpa using atRight
              exact (conflict (by simpa using atLeft) same (same ▸ named)).elim
          | succ right =>
              exact congrArg (· + 1) (ih restUnique (by simpa using atLeft) (by simpa using atRight))

theorem findIdx?_attached {code : List Instruction} (unique : (attached code).Nodup) {place : Nat}
    {instruction : Instruction} (found : code[place]? = some instruction) {label : Label}
    (here : instruction.label = label) (named : label.isNamed = true) :
    (code.findIdx? fun other => other.label = label) = some place := by
  obtain ⟨inside, same⟩ := List.getElem?_eq_some_iff.mp found
  refine List.findIdx?_eq_some_iff_getElem.mpr ⟨inside, by simp [same, here], fun earlier before twice => ?_⟩
  have other : code[earlier].label = label := of_decide_eq_true twice
  have both := place_unique unique (List.getElem?_eq_getElem _) found (other.trans here.symm) (other ▸ named)
  omega

theorem attached_nodup {code : List Instruction}
    (unique : ∀ {left right : Nat} {first second : Instruction}, code[left]? = some first →
      code[right]? = some second → first.label = second.label → first.label.isNamed = true →
      left = right) : (attached code).Nodup := by
  induction code with
  | nil => exact List.nodup_nil
  | cons head rest ih =>
      rw [attached_cons]
      refine List.Nodup.append ?_ ?_ ?_
      · exact (List.nodup_singleton head.label).filter _
      · refine ih fun {left right _ _} atLeft atRight same named => ?_
        exact Nat.succ.inj (unique (by simpa using atLeft) (by simpa using atRight) same named)
      · intro label inHead inRest
        rw [List.mem_filter, List.mem_singleton] at inHead
        obtain ⟨rfl, named⟩ := inHead
        obtain ⟨_, second, member, same⟩ := mem_attached.mp inRest
        obtain ⟨place, found⟩ := List.mem_iff_getElem?.mp member
        have impossible : 0 = place + 1 :=
          unique (by simp) (by simpa using found) same.symm named
        cases impossible

end CounterMachine
