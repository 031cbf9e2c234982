import CounterMachine.Proofs.Exhaustion
import CounterMachine.Proofs.Histories
set_option autoImplicit false

/-!
# Hygiene of inlining

The copy of a function is hygienic if it touches no variable of its surroundings but those it was given, and
if it shares no label with them but the target it was given. The labels of a copy are always its own. Its
variables are, as long as the function knows every variable of its instructions: a function that was expanded
and then restored leaves the variables that it has forgotten in the copy, under their old names.
-/

namespace CounterMachine.Inlining

/-- A variable that a copy may touch: the subject, a variable of the arguments, or a work variable that was
not taken. -/
def Own (supply : Supply) (subject : Variable) (call : Call) (name : Variable) : Prop :=
  name = subject ∨ name ∈ call.vars ∨ (name.isWork = true ∧ name ∉ supply.vars)

/-- A label that a copy may mention: the given target, or a label that was not taken. -/
def OwnLabel (supply : Supply) (use : Use) (label : Label) : Prop :=
  use = .compare label ∨ label ∉ supply.labels

/-- Every variable and every named label of a copy is its own. -/
structure Hygienic (supply : Supply) (subject : Variable) (call : Call) (use : Use)
    (body : List Instruction) : Prop where
  vars : ∀ instruction ∈ body, ∀ name ∈ instruction.vars, Own supply subject call name
  labels : ∀ instruction ∈ body, ∀ label ∈ instruction.namedLabels, OwnLabel supply use label

variable {frame : Frame} {callee : Routine} {supply next : Supply} {subject : Variable} {call : Call}
  {use : Use} {instruction : Instruction}

theorem Frame.own_or_forgotten (fits : frame.Fits callee) (distinct : (knownVars callee).Nodup)
    (draws : supply.Draws frame.draft next)
    (member : instruction ∈ frame.block subject callee call.arguments use) {name : Variable}
    (occurs : name ∈ instruction.vars) : Own supply subject call name ∨ callee.Forgets name := by
  rcases vars_origin fits distinct member occurs with own | given | drawn | forgets
  · exact .inl (.inl own)
  · exact .inl (.inr (.inl given))
  · have untaken := draws.avoids.unused (.var name) (Draft.var_mem_names.mpr drawn)
    exact .inl (.inr (.inr ⟨draws.avoids.work name drawn, untaken⟩))
  · exact .inr forgets

theorem Frame.ownLabel (fits : frame.Fits callee) (draws : supply.Draws frame.draft next)
    (member : instruction ∈ frame.block subject callee call.arguments use) {label : Label}
    (occurs : label ∈ instruction.namedLabels) : OwnLabel supply use label := by
  obtain ⟨here, isNamed⟩ := List.mem_filter.mp occurs
  have untaken : label ∈ frame.draft.labels → OwnLabel supply use label := fun drawn =>
    .inr (draws.avoids.unused (.label label) (Draft.label_mem_names.mpr drawn))
  rcases List.mem_cons.mp here with rfl | targeted
  · exact untaken (label_origin fits member isNamed)
  · have nonempty : label ≠ .empty := by
      rintro rfl
      cases isNamed
    rcases target_origin fits draws.avoids.named member (Option.mem_toList.mp targeted) nonempty with
      drawn | given
    · exact untaken drawn
    · cases use with
      | assign => cases given
      | compare target =>
          cases given
          exact .inl rfl

/-- Inlining is hygienic for a function that knows the variables of its instructions; that is, whatever was
done to the function since its definition, if only its variables were not restored. In every state its labels
are replaced, and exactly the forgotten variables stand in the copy as they are. It fails only if the names of
one frame are not left. -/
theorem inline_hygienic {registry : Registry} {definition : Definition} {callee : Routine} {call : Call}
    (becomes : definition.Becomes (fun _ => True) callee)
    (found : registry[call.function]? = some callee)
    (arity : callee.inputs.length = call.arguments.length) (subject : Variable) (use : Use)
    (supply : Supply) :
    (∃ body next, inline registry subject call use supply = .ok (body, next) ∧
      (∀ instruction ∈ body, ∀ label ∈ instruction.namedLabels, OwnLabel supply use label) ∧
      (∀ instruction ∈ body, ∀ name ∈ instruction.vars,
        Own supply subject call name ∨ callee.Forgets name) ∧
      (∀ name, callee.Forgets name → ∃ instruction ∈ body, name ∈ instruction.vars) ∧
      (definition.Becomes (· ≠ .restoreVars) callee → Hygienic supply subject call use body)) ∨
    (inline registry subject call use supply = .error .namesExhausted ∧ ¬frameDemand callee ≤ supply.free) := by
  cases expanded : inline registry subject call use supply with
  | error failure =>
      right
      obtain ⟨rfl, short⟩ := ((inline_takes found arity subject use supply).fails expanded).resolve_left id
      exact ⟨rfl, short⟩
  | ok outcome =>
      left
      obtain ⟨other, frame, otherFound, _, fits, draws, same⟩ := Operation.inline_block expanded
      obtain rfl : callee = other := Option.some.inj (found.symm.trans otherFound)
      have distinct := becomes.consistent.distinct
      have labels : ∀ instruction ∈ outcome.1, ∀ label ∈ instruction.namedLabels,
          OwnLabel supply use label := by
        rw [same]
        exact fun _ member _ occurs => Frame.ownLabel fits draws member occurs
      have vars : ∀ instruction ∈ outcome.1, ∀ name ∈ instruction.vars,
          Own supply subject call name ∨ callee.Forgets name := by
        rw [same]
        exact fun _ member _ occurs => Frame.own_or_forgotten fits distinct draws member occurs
      refine ⟨outcome.1, outcome.2, rfl, labels, vars, ?_, ?_⟩
      · rw [same]
        exact fun _ forgets => Frame.forgotten_block fits forgets
      · intro kept
        have covered := becomes.consistent.covered kept.listed
        refine ⟨fun instruction member name occurs => ?_, labels⟩
        rcases vars instruction member name occurs with own | forgets
        · exact own
        · exact (covered.not_forgets forgets).elim

def copyDefinition : Definition :=
  ⟨"Copy", [.plain (.assignment .result (.input 1))]⟩

/-- The copying function after one round, in which it drew `z1` and three labels. -/
def expandedCopy : Routine :=
  (Routine.ofDefinition copyDefinition).act ∅ (.expand 1)

def copyCall : Call :=
  ⟨"Copy", [.var (.input 1)]⟩

/-- The names that are taken in a caller with a `z1` of its own. -/
def callerSupply : Supply :=
  (Routine.ofDefinition
    ⟨"Main", [.plain (.increase (.work 1)), .plain (.quote .result copyCall)]⟩).supply

theorem getElem?_add_copyCall {callee : Routine} (named : callee.name = "Copy") :
    (Registry.add ∅ callee)[copyCall.function]? = some callee := by
  rw [Registry.add, named]
  exact Std.ExtTreeMap.getElem?_insert_self

theorem inline_expandedCopy_hygienic :
    copyDefinition.Becomes (· ≠ .restoreVars) expandedCopy ∧
    ∃ body next, inline (.add ∅ expandedCopy) .result copyCall .assign callerSupply = .ok (body, next) ∧
      Hygienic callerSupply .result copyCall .assign body := by
  have kept : copyDefinition.Becomes (· ≠ .restoreVars) expandedCopy := .act .source nofun ∅
  have becomes : copyDefinition.Becomes (fun _ => True) expandedCopy := .act .source trivial ∅
  have arity : expandedCopy.inputs.length = copyCall.arguments.length := by decide +kernel
  have named : expandedCopy.name = "Copy" := by decide +kernel
  have succeeds : (inline (.add ∅ expandedCopy) .result copyCall .assign callerSupply).isOk = true := by
    decide +kernel
  refine ⟨kept, ?_⟩
  rcases inline_hygienic becomes (getElem?_add_copyCall named) arity .result .assign callerSupply with
    ⟨body, next, inlined, _, _, _, hygienic⟩ | ⟨failed, _⟩
  · exact ⟨body, next, inlined, hygienic kept⟩
  · rw [failed] at succeeds
    cases succeeds

/-- Once the variables of the expanded function are restored, its copy counts in the `z1` of the caller. -/
theorem inline_restored_unhygienic :
    copyDefinition.Becomes (fun _ => True) expandedCopy.restoreVars ∧
    (Registry.add ∅ expandedCopy.restoreVars)[copyCall.function]? = some expandedCopy.restoreVars ∧
    expandedCopy.restoreVars.inputs.length = copyCall.arguments.length ∧
    ∃ body next,
      inline (.add ∅ expandedCopy.restoreVars) .result copyCall .assign callerSupply = .ok (body, next) ∧
      ¬Hygienic callerSupply .result copyCall .assign body := by
  have before : copyDefinition.Becomes (fun _ => True) expandedCopy := .act .source trivial ∅
  have becomes : copyDefinition.Becomes (fun _ => True) (expandedCopy.act ∅ .restoreVars) :=
    .act before trivial ∅
  have counted : (inline (.add ∅ expandedCopy.restoreVars) .result copyCall .assign callerSupply).map
      (fun outcome => outcome.1.contains (.plain (.increase (.work 1)))) = .ok true := by
    decide +kernel
  have taken : .work 1 ∈ callerSupply.vars := by decide +kernel
  refine ⟨becomes, getElem?_add_copyCall (by decide +kernel), by decide +kernel, ?_⟩
  cases inlined : inline (.add ∅ expandedCopy.restoreVars) .result copyCall .assign callerSupply with
  | error failure =>
      rw [inlined] at counted
      cases counted
  | ok outcome =>
      rw [inlined] at counted
      have member : .plain (.increase (.work 1)) ∈ outcome.1 :=
        List.contains_iff_mem.mp (Except.ok.inj counted)
      refine ⟨outcome.1, outcome.2, rfl, fun hygienic => ?_⟩
      rcases hygienic.vars _ member (.work 1) List.mem_cons_self with same | given | ⟨_, untaken⟩
      · cases same
      · simp [copyCall, Call.vars, Argument.varsAll, Argument.vars] at given
      · exact untaken taken

end CounterMachine.Inlining
