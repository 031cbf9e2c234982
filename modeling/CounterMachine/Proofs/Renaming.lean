import CounterMachine.Proofs.Semantics
set_option autoImplicit false

/-!
# Renamed operations

An operation with other names does the same on a store that holds the values under these names. New targets
change where it leads. Variables that an operation does not mention keep their values.
-/

namespace CounterMachine

/-- Applies a renaming of labels to the target of a jump. -/
def Flow.mapTarget (relabel : Label → Label) : Flow → Flow
  | next => next
  | goto target => goto (relabel target)

theorem Flow.mapTarget_jumpIf (relabel : Label → Label) (condition : Bool) (target : Label) :
    (jumpIf condition target).mapTarget relabel = jumpIf condition (relabel target) := by
  cases condition <;> rfl

/-- A store holds the values of known variables under new names. -/
def Mirrors (known : List Variable) (rename : Variable → Variable) (original copy : Store) : Prop :=
  ∀ name ∈ known, copy (rename name) = original name

section Mirrors

variable {known : List Variable} {rename : Variable → Variable} {original copy : Store}

theorem Mirrors.update (mirrors : Mirrors known rename original copy)
    (injective : ∀ left ∈ known, ∀ right ∈ known, rename left = rename right → left = right)
    {name : Variable} (isKnown : name ∈ known) (value : UInt64) :
    Mirrors known rename (Function.update original name value)
      (Function.update copy (rename name) value) := by
  intro other alsoKnown
  by_cases same : other = name
  · subst same
    rw [Function.update_self, Function.update_self]
  · have different : rename other ≠ rename name :=
      fun equal => same (injective other alsoKnown name isKnown equal)
    rw [Function.update_of_ne same, Function.update_of_ne different]
    exact mirrors other alsoKnown

end Mirrors

namespace Operation

theorem effect_mapTarget (relabel : Label → Label) (answer : UInt64) (store : Store)
    (operation : Operation) :
    (operation.mapTarget relabel).effect answer store =
      ((operation.effect answer store).1.mapTarget relabel, (operation.effect answer store).2) := by
  cases operation with
  | jumpNotZero | jumpZero | jumpEqualConstant | jumpEqualVariable | jumpEqualFunction =>
      exact Prod.ext (Flow.mapTarget_jumpIf _ _ _).symm rfl
  | _ => rfl

theorem effect_frame (answer : UInt64) (store : Store) (operation : Operation) {name : Variable}
    (absent : name ∉ operation.vars) : (operation.effect answer store).2 name = store name := by
  cases operation with
  | increase | decrease | zeroVariable | constantAssignment | assignment | quote =>
      exact Function.update_of_ne (List.ne_of_not_mem_cons absent) _ _
  | _ => rfl

section Renamed

variable {known : List Variable} {rename : Variable → Variable} {original copy : Store}
  {operation : Operation}

/-- A renamed operation leads to the same place and does the same to the renamed variables. -/
theorem effect_mapVars (mirrors : Mirrors known rename original copy)
    (injective : ∀ left ∈ known, ∀ right ∈ known, rename left = rename right → left = right)
    (mentioned : ∀ name ∈ operation.vars, name ∈ known) (answer : UInt64) :
    ((operation.mapVars rename).effect answer copy).1 = (operation.effect answer original).1 ∧
      Mirrors known rename (operation.effect answer original).2
        ((operation.mapVars rename).effect answer copy).2 := by
  cases operation with
  | increase subject | decrease subject | zeroVariable subject | constantAssignment subject
  | quote subject =>
      have isKnown := mentioned subject (by simp [vars])
      refine ⟨rfl, ?_⟩
      simp only [mapVars, effect, mirrors subject isKnown]
      exact mirrors.update injective isKnown _
  | assignment subject source =>
      refine ⟨rfl, ?_⟩
      simp only [mapVars, effect, mirrors source (mentioned source (by simp [vars]))]
      exact mirrors.update injective (mentioned subject (by simp [vars])) _
  | jumpNotZero subject | jumpZero subject | jumpEqualConstant subject | jumpEqualFunction subject =>
      simp only [mapVars, effect, mirrors subject (mentioned subject (by simp [vars]))]
      exact ⟨trivial, mirrors⟩
  | jumpEqualVariable subject other =>
      simp only [mapVars, effect, mirrors subject (mentioned subject (by simp [vars])),
        mirrors other (mentioned other (by simp [vars]))]
      exact ⟨trivial, mirrors⟩
  | neutral | gotoLabel => exact ⟨rfl, mirrors⟩

theorem answered_mapTarget {registry : Registry} (relabel : Label → Label) {answer : UInt64} :
    (operation.mapTarget relabel).Answered registry copy answer ↔
      operation.Answered registry copy answer := by
  rw [Answered, Answered, call?_mapTarget]

theorem answered_mapVars {registry : Registry} (mirrors : Mirrors known rename original copy)
    (mentioned : ∀ name ∈ operation.vars, name ∈ known) {answer : UInt64} :
    (operation.mapVars rename).Answered registry copy answer ↔
      operation.Answered registry original answer := by
  rw [Answered, Answered, call?_mapVars]
  cases calls : operation.call? with
  | none => simp
  | some call =>
      have same : ∀ name ∈ call.vars, copy (rename name) = original name := by
        intro name occurs
        exact mirrors name (mentioned name (vars_of_call calls occurs))
      have renamed := @Argument.answers_mapVars registry original copy rename call.toArgument answer
        (by rw [Call.toArgument, Argument.vars]; exact same)
      simpa [Call.toArgument, Call.mapVars, Argument.mapVars] using renamed

end Renamed

end Operation

end CounterMachine
