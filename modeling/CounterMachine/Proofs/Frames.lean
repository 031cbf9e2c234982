import CounterMachine.Derivation.Inlining
import CounterMachine.Proofs.Drawing
set_option autoImplicit false

/-!
# Frames

The names of a copy of a function stand for the names of the function one by one. As both are distinct, the
renaming of a copy is injective on what the function knows, and it reaches every name of the frame.
-/

namespace CounterMachine.Inlining

/-! ## Renaming by pairs -/

section Rename

variable {α : Type} [DecidableEq α]

theorem rename_of_not_mem {keys values : List α} {name : α} (absent : name ∉ keys) :
    rename (keys.zip values) name = name := by
  have missing : (keys.zip values).lookup name = none := by
    rw [List.lookup_eq_none_iff]
    intro pair member
    have inKeys := (List.of_mem_zip member).1
    simp only [bne_iff_ne]
    rintro rfl
    exact absent inKeys
  rw [rename, missing, Option.getD_none]

theorem map_rename_zip {keys values : List α} (distinct : keys.Nodup)
    (same : keys.length = values.length) : keys.map (rename (keys.zip values)) = values := by
  induction keys generalizing values with
  | nil => simpa using same.symm
  | cons key keys ih =>
      cases values with
      | nil => simp at same
      | cons value values =>
          obtain ⟨fresh, distinct⟩ := List.nodup_cons.mp distinct
          rw [List.map_cons]
          congr 1
          · simp [rename]
          · refine (List.map_congr_left ?_).trans (ih distinct (by simpa using same))
            intro name member
            have different : name ≠ key := by
              rintro rfl
              exact fresh member
            simp [rename, List.lookup_cons, beq_false_of_ne different]

theorem nodup_eraseDups (names : List α) : names.eraseDups.Nodup := by
  induction length : names.length using Nat.strong_induction_on generalizing names with
  | _ _ ih =>
      cases names with
      | nil => simp
      | cons name names =>
          rw [List.eraseDups_cons, List.nodup_cons]
          subst length
          constructor
          · simp
          · exact ih _ (by simpa using Nat.lt_succ_of_le (List.length_filter_le _ _)) _ rfl

end Rename

/-! ## Names of a copy -/

/-- The variables of a function that a copy replaces. -/
def knownVars (callee : Routine) : List Variable :=
  .result :: callee.inputs ++ localVars callee

theorem mem_knownVars {callee : Routine} {name : Variable} :
    name ∈ knownVars callee ↔
      name = .result ∨ name ∈ callee.inputs ∨ name ∈ callee.vars := by
  simp only [knownVars, localVars, List.cons_append, List.mem_cons, List.mem_append, List.mem_filter,
    Std.ExtTreeSet.mem_toList, Bool.and_eq_true, decide_eq_true_eq, Bool.not_eq_true',
    List.contains_eq_mem, decide_eq_false_iff_not]
  tauto

namespace Frame

/-- A frame has a name for each name of a function that is replaced. -/
structure Fits (frame : Frame) (callee : Routine) : Prop where
  slots : frame.slots.length = callee.inputs.length
  locals : frame.locals.length = (localVars callee).length
  places : frame.places.length = (localLabels callee).length
  leave : frame.leave.isSome = jumpsToExit callee

/-- The names of a frame. -/
def draft (frame : Frame) : Draft :=
  ⟨frame.places ++ frame.leave.toList, frame.answer :: frame.slots ++ frame.locals⟩

theorem draw_ok {callee : Routine} {supply next : Supply} {frame : Frame}
    (drawn : draw callee supply = .ok (frame, next)) :
    frame.Fits callee ∧ supply.Draws frame.draft next := by
  simp only [draw] at drawn
  obtain ⟨answer, _, answerDrawn, drawn⟩ := Fresh.bind_ok drawn
  obtain ⟨slots, _, slotsDrawn, drawn⟩ := Fresh.bind_ok drawn
  obtain ⟨locals, _, localsDrawn, drawn⟩ := Fresh.bind_ok drawn
  obtain ⟨places, _, placesDrawn, drawn⟩ := Fresh.bind_ok drawn
  obtain ⟨slotsDraw, slotsLength⟩ := Fresh.works_ok slotsDrawn
  obtain ⟨localsDraw, localsLength⟩ := Fresh.works_ok localsDrawn
  obtain ⟨placesDraw, placesLength⟩ := Fresh.labels_ok placesDrawn
  have draws := (((Fresh.work_ok answerDrawn).trans slotsDraw).trans localsDraw).trans placesDraw
  cases exits : jumpsToExit callee with
  | true =>
      simp only [exits, if_true] at drawn
      obtain ⟨leave, _, leaveDrawn, drawn⟩ := Fresh.bind_ok drawn
      obtain ⟨rfl, rfl⟩ := Fresh.pure_ok drawn
      refine ⟨⟨slotsLength, localsLength, placesLength, exits.symm⟩, ?_⟩
      simpa [Draft.append, draft] using draws.trans (Fresh.label_ok leaveDrawn)
  | false =>
      simp only [exits, Bool.false_eq_true, if_false] at drawn
      obtain ⟨rfl, rfl⟩ := Fresh.pure_ok drawn
      refine ⟨⟨slotsLength, localsLength, placesLength, exits.symm⟩, ?_⟩
      simpa [Draft.append, draft] using draws

variable {frame : Frame} {callee : Routine}

theorem renameVar_result (frame : Frame) (callee : Routine) :
    frame.renameVar callee .result = frame.answer := by
  simp [renameVar, rename]

theorem renameVar_eq (fits : frame.Fits callee) :
    frame.renameVar callee = rename ((knownVars callee).zip frame.draft.works) := by
  rw [renameVar, knownVars, draft, List.cons_append, List.cons_append, List.cons_append, List.zip_cons_cons,
    List.zip_append fits.slots.symm]

theorem renameVar_of_unknown (fits : frame.Fits callee) {name : Variable}
    (unknown : name ∉ knownVars callee) : frame.renameVar callee name = name := by
  rw [renameVar_eq fits]
  exact rename_of_not_mem unknown

theorem map_renameVar (fits : frame.Fits callee) (distinct : (knownVars callee).Nodup) :
    (knownVars callee).map (frame.renameVar callee) = frame.draft.works := by
  rw [renameVar_eq fits]
  apply map_rename_zip distinct
  simp [knownVars, draft, fits.slots, fits.locals]

/-- The labels of the frame are the replaced ones, one by one; `EXIT` comes last. -/
theorem map_renameLabel (fits : frame.Fits callee) :
    (localLabels callee).map (frame.renameLabel callee) = frame.places :=
  map_rename_zip (nodup_eraseDups _) fits.places.symm

theorem renameVar_mem (fits : frame.Fits callee) (distinct : (knownVars callee).Nodup)
    {name : Variable} (known : name ∈ knownVars callee) :
    frame.renameVar callee name ∈ frame.draft.works := by
  rw [← map_renameVar fits distinct]
  exact List.mem_map_of_mem known

theorem renameVar_injOn (fits : frame.Fits callee) (distinct : (knownVars callee).Nodup)
    (works : frame.draft.works.Nodup) {left right : Variable} (knownLeft : left ∈ knownVars callee)
    (knownRight : right ∈ knownVars callee)
    (same : frame.renameVar callee left = frame.renameVar callee right) : left = right := by
  rw [← map_renameVar fits distinct] at works
  exact List.inj_on_of_nodup_map works knownLeft knownRight same

theorem renameLabel_mem (fits : frame.Fits callee) {label : Label}
    (known : label ∈ localLabels callee) : frame.renameLabel callee label ∈ frame.places := by
  rw [← map_renameLabel fits]
  exact List.mem_map_of_mem known

theorem mem_localLabels {label : Label} :
    label ∈ localLabels callee ↔ .label label ∈ namesIn callee.instructions := by
  simp [localLabels, Instruction.names]

theorem renameLabel_of_not_named {label : Label} (unnamed : label.isNamed = false) :
    frame.renameLabel callee label = label := by
  apply rename_of_not_mem
  rw [mem_localLabels]
  intro found
  obtain ⟨instruction, _, occurs⟩ := found
  rw [Instruction.label_mem_names, unnamed] at occurs
  exact Bool.false_ne_true occurs.1

end Frame

end CounterMachine.Inlining
