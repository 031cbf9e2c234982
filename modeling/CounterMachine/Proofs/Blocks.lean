import CounterMachine.Derivation.Tree
import CounterMachine.Proofs.Frames
import CounterMachine.Proofs.Labels
import Mathlib.Data.List.Perm.Basic
set_option autoImplicit false

/-!
# What an operation stands for

One round of expansion replaces a synthetic operation by a block, with names that were drawn for it. The
relation between the operation, the names and the block does not mention the supply. A block mentions all
names of its operation and all names of its draft. It mentions no other name, provided that the functions
know the variables of their instructions.
-/

namespace CounterMachine

open Inlining

/-- The composition that uses the result of a call. -/
def Inlining.Use.composition (subject : Variable) (call : Call) : Use → Operation
  | assign => .quote subject call
  | compare target => .jumpEqualFunction subject call target

/-- A call and the calls in its arguments are known and pass the right number of arguments. -/
def Call.Fits (registry : Registry) (call : Call) : Prop :=
  ∀ inner ∈ call.calls, ∃ callee, registry[inner.function]? = some callee ∧
    callee.inputs.length = inner.arguments.length

theorem Call.Fits.callee {registry : Registry} {call : Call} (fits : call.Fits registry) :
    ∃ callee, registry[call.function]? = some callee ∧ callee.inputs.length = call.arguments.length :=
  fits call List.mem_cons_self

/-- The calls of some instructions are known to a registry. -/
def CallsFit (registry : Registry) (code : List Instruction) : Prop :=
  ∀ instruction ∈ code, ∀ call, instruction.operation.call? = some call → call.Fits registry

/-- The names of the functions that an operation calls. -/
def Operation.calledNames (operation : Operation) : List String :=
  operation.call?.toList.flatMap Call.functions

theorem Operation.mem_calledNames {operation : Operation} {name : String} :
    name ∈ operation.calledNames ↔
      ∃ call, operation.call? = some call ∧ ∃ inner ∈ call.calls, inner.function = name := by
  simp [calledNames, Call.functions]

theorem Routine.mem_calledNames {routine : Routine} {name : String} :
    name ∈ routine.calledNames ↔
      ∃ instruction ∈ routine.instructions, name ∈ instruction.operation.calledNames := by
  simp only [calledNames, calls, Operation.calledNames, List.mem_flatMap, List.mem_filterMap,
    Option.mem_toList, Instruction.call?]
  constructor
  · rintro ⟨call, ⟨instruction, member, calls⟩, called⟩
    exact ⟨instruction, member, call, calls, called⟩
  · rintro ⟨instruction, member, call, calls, called⟩
    exact ⟨call, ⟨instruction, member, calls⟩, called⟩

/-- A routine finds its instructions and its labels, and calls functions of a registry. -/
structure Routine.Runnable (registry : Registry) (routine : Routine) : Prop where
  present : ∀ id ∈ routine.sequence, ∃ node, routine.forest.get? id = some node
  resolved : Resolved routine.instructions
  calls : CallsFit registry routine.instructions
  positions : routine.state.labels = routine.labelPositions

/-- A routine knows the variables of its instructions, each of them once. -/
structure Routine.Covered (routine : Routine) : Prop where
  distinct : (knownVars routine).Nodup
  known : ∀ {instruction}, instruction ∈ routine.instructions →
    ∀ {name}, name ∈ instruction.operation.vars → name ∈ knownVars routine

/-- The instructions of a routine mention a variable that the routine does not know. -/
def Routine.Forgets (routine : Routine) (name : Variable) : Prop :=
  name ∉ knownVars routine ∧ ∃ instruction ∈ routine.instructions, name ∈ instruction.operation.vars

theorem Routine.Covered.not_forgets {routine : Routine} (covered : routine.Covered) {name : Variable} :
    ¬routine.Forgets name := by
  rintro ⟨unknown, instruction, member, occurs⟩
  exact unknown (covered.known member occurs)

/-- A routine that can be run and inlined: it knows the variables of its instructions. -/
structure Routine.WellFormed (registry : Registry) (routine : Routine) : Prop
    extends Routine.Runnable registry routine where
  distinct : (knownVars routine).Nodup
  known : ∀ {instruction}, instruction ∈ routine.instructions →
    ∀ {name}, name ∈ instruction.operation.vars → name ∈ knownVars routine

theorem Routine.WellFormed.covered {registry : Registry} {routine : Routine}
    (wellFormed : routine.WellFormed registry) : routine.Covered :=
  ⟨wellFormed.distinct, wellFormed.known⟩

/-- Every function of a registry is well formed. -/
def Registry.WellFormed (registry : Registry) : Prop :=
  ∀ {name : String} {routine : Routine}, registry[name]? = some routine → routine.WellFormed registry

namespace Inlining.Frame

variable {frame : Frame} {callee : Routine} {instruction : Instruction}

@[simp] theorem label_copyOf :
    (frame.copyOf callee instruction).label = frame.renameLabel callee instruction.label :=
  rfl

@[simp] theorem target?_copyOf :
    (frame.copyOf callee instruction).operation.target? =
      instruction.operation.target?.map fun target =>
        frame.redirect (frame.renameLabel callee target) := by
  simp [copyOf, Instruction.mapLabels, Instruction.mapVars, Function.comp_def]

@[simp] theorem vars_copyOf :
    (frame.copyOf callee instruction).operation.vars =
      instruction.operation.vars.map (frame.renameVar callee) := by
  simp [copyOf, Instruction.mapLabels, Instruction.mapVars]

@[simp] theorem call?_copyOf :
    (frame.copyOf callee instruction).operation.call? =
      instruction.operation.call?.map (Call.mapVars (frame.renameVar callee)) := by
  simp [copyOf, Instruction.mapLabels, Instruction.mapVars]

theorem redirect_of_named {target : Label} (named : target.isNamed = true) :
    frame.redirect target = target := by
  apply if_neg
  rintro rfl
  cases named

theorem vars_bind (slot : Variable) (argument : Argument) :
    (bind slot argument).vars = slot :: argument.vars := by
  cases argument <;> rfl

theorem mem_block {subject : Variable} {arguments : List Argument} {use : Use} :
    instruction ∈ frame.block subject callee arguments use ↔
      instruction = .plain (.neutral subject) ∨
      (∃ name ∈ frame.answer :: frame.locals, instruction = .plain (.zeroVariable name)) ∨
      (∃ slot argument, (slot, argument) ∈ frame.slots.zip arguments ∧
        instruction = .plain (bind slot argument)) ∨
      (∃ original ∈ callee.instructions, instruction = frame.copyOf callee original) ∨
      instruction = frame.tail subject use := by
  simp only [block, clear, bindings, List.mem_cons, List.mem_append, List.mem_map, List.not_mem_nil,
    or_false, Prod.exists, or_assoc, eq_comm]

/-- A copy mentions what it is given, the names of its frame, and what its function has forgotten. -/
theorem vars_origin {subject : Variable} {arguments : List Argument} {use : Use}
    (fits : frame.Fits callee) (distinct : (knownVars callee).Nodup)
    (member : instruction ∈ frame.block subject callee arguments use) {name : Variable}
    (occurs : name ∈ instruction.operation.vars) :
    name = subject ∨ name ∈ Argument.varsAll arguments ∨ name ∈ frame.draft.works ∨
      callee.Forgets name := by
  rcases mem_block.mp member with rfl | ⟨cleared, inFrame, rfl⟩ | ⟨slot, argument, paired, rfl⟩ |
    ⟨original, inBody, rfl⟩ | rfl
  · exact .inl (List.mem_singleton.mp occurs)
  · obtain rfl := List.mem_singleton.mp occurs
    right; right; left
    rcases List.mem_cons.mp inFrame with rfl | inLocals
    · exact List.mem_cons_self
    · exact List.mem_append_right _ inLocals
  · obtain ⟨inSlots, inArguments⟩ := List.of_mem_zip paired
    rw [Instruction.plain, vars_bind, List.mem_cons] at occurs
    rcases occurs with rfl | occurs
    · exact .inr (.inr (.inl (List.mem_append_left _ (List.mem_cons_of_mem _ inSlots))))
    · rw [Argument.varsAll_eq_flatMap]
      exact .inr (.inl (List.mem_flatMap_of_mem inArguments occurs))
  · rw [vars_copyOf, List.mem_map] at occurs
    obtain ⟨replaced, inOriginal, rfl⟩ := occurs
    by_cases known : replaced ∈ knownVars callee
    · exact .inr (.inr (.inl (renameVar_mem fits distinct known)))
    · rw [renameVar_of_unknown fits known]
      exact .inr (.inr (.inr ⟨known, original, inBody, inOriginal⟩))
  · have parts : name = subject ∨ name = frame.answer := by
      cases use <;> simpa [tail, Instruction.labeled, Use.operation, Operation.vars] using occurs
    rcases parts with same | rfl
    · exact .inl same
    · exact .inr (.inr (.inl List.mem_cons_self))

/-- What a function has forgotten stands in the copy under its old name. -/
theorem forgotten_block {subject : Variable} {arguments : List Argument} {use : Use}
    (fits : frame.Fits callee) {name : Variable} (forgets : callee.Forgets name) :
    ∃ instruction ∈ frame.block subject callee arguments use, name ∈ instruction.operation.vars := by
  obtain ⟨unknown, original, inBody, occurs⟩ := forgets
  refine ⟨_, mem_block.mpr (.inr (.inr (.inr (.inl ⟨original, inBody, rfl⟩)))), ?_⟩
  rw [vars_copyOf, List.mem_map]
  exact ⟨name, occurs, renameVar_of_unknown fits unknown⟩

theorem vars_block {subject : Variable} {arguments : List Argument} {use : Use}
    (fits : frame.Fits callee) (arity : callee.inputs.length = arguments.length)
    (covered : callee.Covered) {name : Variable} :
    (∃ instruction ∈ frame.block subject callee arguments use, name ∈ instruction.operation.vars) ↔
      name = subject ∨ name ∈ Argument.varsAll arguments ∨ name ∈ frame.draft.works := by
  have lengths : frame.slots.length = arguments.length := fits.slots.trans arity
  constructor
  · intro found
    obtain ⟨instruction, member, occurs⟩ := found
    rcases vars_origin fits covered.distinct member occurs with own | given | drawn | forgets
    · exact .inl own
    · exact .inr (.inl given)
    · exact .inr (.inr drawn)
    · exact (covered.not_forgets forgets).elim
  · intro found
    rcases found with rfl | occurs | occurs
    · exact ⟨_, mem_block.mpr (.inl rfl), List.mem_cons_self⟩
    · rw [Argument.varsAll_eq_flatMap] at occurs
      obtain ⟨argument, inArguments, occurs⟩ := List.mem_flatMap.mp occurs
      rw [← List.map_snd_zip lengths.ge, List.mem_map] at inArguments
      obtain ⟨⟨slot, argument⟩, paired, rfl⟩ := inArguments
      refine ⟨_, mem_block.mpr (.inr (.inr (.inl ⟨slot, argument, paired, rfl⟩))), ?_⟩
      rw [Instruction.plain, vars_bind]
      exact List.mem_cons_of_mem _ occurs
    · rw [draft, List.mem_append, List.mem_cons] at occurs
      rcases occurs with (rfl | inSlots) | inLocals
      · exact ⟨_, mem_block.mpr (.inr (.inl ⟨_, List.mem_cons_self, rfl⟩)), List.mem_cons_self⟩
      · rw [← List.map_fst_zip lengths.le, List.mem_map] at inSlots
        obtain ⟨⟨slot, argument⟩, paired, rfl⟩ := inSlots
        refine ⟨_, mem_block.mpr (.inr (.inr (.inl ⟨slot, argument, paired, rfl⟩))), ?_⟩
        rw [Instruction.plain, vars_bind]
        exact List.mem_cons_self
      · exact ⟨_, mem_block.mpr (.inr (.inl ⟨name, List.mem_cons_of_mem _ inLocals, rfl⟩)),
          List.mem_cons_self⟩

/-- A named label in a copy belongs to the frame. -/
theorem label_origin {subject : Variable} {arguments : List Argument} {use : Use}
    (fits : frame.Fits callee) (member : instruction ∈ frame.block subject callee arguments use)
    (isNamed : instruction.label.isNamed = true) : instruction.label ∈ frame.draft.labels := by
  rcases mem_block.mp member with rfl | ⟨cleared, inFrame, rfl⟩ | ⟨slot, argument, paired, rfl⟩ |
    ⟨original, inBody, rfl⟩ | rfl
  · cases isNamed
  · cases isNamed
  · cases isNamed
  · cases named : original.label.isNamed with
    | false =>
        rw [label_copyOf, renameLabel_of_not_named named, named] at isNamed
        cases isNamed
    | true =>
        have known : original.label ∈ localLabels callee :=
          mem_localLabels.mpr ⟨original, inBody, Instruction.label_mem_names.mpr ⟨named, .inl rfl⟩⟩
        exact List.mem_append_left _ (renameLabel_mem fits known)
  · cases leaves : frame.leave with
    | none =>
        rw [tail, leaves] at isNamed
        cases isNamed
    | some leave => simp [draft, tail, Instruction.labeled, leaves]

theorem attached_copy (fits : frame.Fits callee)
    (named : ∀ label ∈ frame.draft.labels, label.isNamed = true) :
    attached (callee.instructions.map (frame.copyOf callee)) =
      (attached callee.instructions).map (frame.renameLabel callee) := by
  simp only [attached, List.map_map, List.filter_map]
  congr 1
  apply List.filter_congr
  intro instruction member
  simp only [Function.comp_apply, label_copyOf]
  cases isNamed : instruction.label.isNamed with
  | false => rw [renameLabel_of_not_named isNamed, isNamed]
  | true =>
      have occurs : .label instruction.label ∈ namesIn callee.instructions :=
        ⟨instruction, member, Instruction.label_mem_names.mpr ⟨isNamed, .inl rfl⟩⟩
      apply named
      exact List.mem_append_left _ (renameLabel_mem fits (mem_localLabels.mpr occurs))

theorem attached_block {subject : Variable} {arguments : List Argument} {use : Use}
    (fits : frame.Fits callee) (named : ∀ label ∈ frame.draft.labels, label.isNamed = true)
    (resolved : Resolved callee.instructions) :
    (attached (frame.block subject callee arguments use)).Perm frame.draft.labels := by
  have ending : attached [frame.tail subject use] = frame.leave.toList := by
    cases leave : frame.leave with
    | none => simp [attached, tail, leave, Instruction.labeled, Label.isNamed]
    | some label =>
        have isNamed := named label (List.mem_append_right _ (by simp [leave]))
        simp [attached, tail, leave, Instruction.labeled, isNamed]
  have parts : attached (frame.block subject callee arguments use) =
      (attached callee.instructions).map (frame.renameLabel callee) ++ frame.leave.toList := by
    have anchor : attached [.plain (.neutral subject)] = [] := rfl
    have clearing : attached frame.clear = [] := by
      simp [attached, clear, Instruction.plain, Label.isNamed]
    have binding : attached (frame.bindings arguments) = [] := by
      rw [attached, List.filter_eq_nil_iff]
      intro label member
      simp only [bindings, List.map_map, List.mem_map, Function.comp_apply, Instruction.plain] at member
      obtain ⟨_, _, rfl⟩ := member
      exact Bool.false_ne_true
    rw [block, ← List.singleton_append, attached_append, attached_append, attached_append,
      attached_append, anchor, clearing, binding, attached_copy fits named, ending]
    rfl
  rw [parts, draft, ← map_renameLabel fits]
  apply List.Perm.append_right
  apply List.Perm.map
  refine (List.perm_ext_iff_of_nodup resolved.unique (nodup_eraseDups _)).mpr fun label => ?_
  rw [← resolved.label_mem_names]
  exact mem_localLabels.symm

theorem target_origin {subject : Variable} {arguments : List Argument} {use : Use}
    (fits : frame.Fits callee) (named : ∀ label ∈ frame.draft.labels, label.isNamed = true)
    (member : instruction ∈ frame.block subject callee arguments use) {target : Label}
    (jumps : instruction.operation.target? = some target) (nonempty : target ≠ .empty) :
    target ∈ frame.draft.labels ∨ (use.operation subject frame.answer).target? = some target := by
  rcases mem_block.mp member with rfl | ⟨cleared, inFrame, rfl⟩ | ⟨slot, argument, paired, rfl⟩ |
    ⟨original, inBody, rfl⟩ | rfl
  · cases jumps
  · cases jumps
  · cases argument <;> cases jumps
  · left
    rw [target?_copyOf, Option.map_eq_some_iff] at jumps
    obtain ⟨source, jumps, rfl⟩ := jumps
    cases source with
    | empty =>
        rw [renameLabel_of_not_named rfl] at nonempty
        exact (nonempty rfl).elim
    | exit =>
        rw [renameLabel_of_not_named rfl]
        have exits : jumpsToExit callee = true :=
          List.any_eq_true.mpr ⟨original, inBody, by simp [Instruction.target?, jumps]⟩
        obtain ⟨leave, found⟩ := Option.isSome_iff_exists.mp (fits.leave.trans exits)
        simp [draft, redirect, found]
    | named index =>
        have place := renameLabel_mem fits (mem_localLabels.mpr (target_mem_names inBody jumps rfl))
        have inDraft : frame.renameLabel callee (.named index) ∈ frame.draft.labels :=
          List.mem_append_left _ place
        rwa [redirect_of_named (named _ inDraft)]
  · exact .inr jumps

end Inlining.Frame

namespace Operation

/-- An operation stands for a block that has the names of a draft. -/
inductive StandsFor (registry : Registry) : Operation → Draft → List Instruction → Prop where
  | zero {subject body done spare} :
      StandsFor registry (.zeroVariable subject) ⟨[body, done], [spare]⟩
        (Block.zero subject body done spare)
  | goto {target spare} :
      StandsFor registry (.gotoLabel target) ⟨[], [spare]⟩ (Block.goto target spare)
  | constant {subject value pump after count} :
      StandsFor registry (.constantAssignment subject value) ⟨[pump, after], [count]⟩
        (Block.constant subject value pump after count)
  | copySelf {subject} :
      StandsFor registry (.assignment subject subject) {} [.plain (.neutral subject)]
  | copy {subject source drain refill done store} (different : subject ≠ source) :
      StandsFor registry (.assignment subject source) ⟨[drain, refill, done], [store]⟩
        (Block.copy subject source drain refill done store)
  | jumpIfZero {subject target skip} :
      StandsFor registry (.jumpZero subject target) ⟨[skip], []⟩
        (Block.jumpIfZero subject target skip)
  | jumpIfConstant {subject value target different rest} :
      StandsFor registry (.jumpEqualConstant subject value target) ⟨[different], [rest]⟩
        (Block.jumpIfConstant subject value target different rest)
  | jumpIfEqual {subject other target again check different left right} :
      StandsFor registry (.jumpEqualVariable subject other target)
        ⟨[again, check, different], [left, right]⟩
        (Block.jumpIfEqual subject other target again check different left right)
  | composition {operation} (subject : Variable) (call : Call) (use : Use) (callee : Routine)
      (frame : Frame) (composed : operation = use.composition subject call)
      (found : registry[call.function]? = some callee)
      (arity : callee.inputs.length = call.arguments.length)
      (fits : Frame.Fits frame callee) :
      StandsFor registry operation frame.draft (frame.block subject callee call.arguments use)

theorem inline_block {registry : Registry} {subject : Variable} {call : Call} {use : Use}
    {supply next : Supply} {body : List Instruction}
    (expanded : inline registry subject call use supply = .ok (body, next)) :
    ∃ (callee : Routine) (frame : Frame), registry[call.function]? = some callee ∧
      callee.inputs.length = call.arguments.length ∧ frame.Fits callee ∧
      supply.Draws frame.draft next ∧ body = frame.block subject callee call.arguments use := by
  unfold Inlining.inline at expanded
  cases found : registry[call.function]? with
  | none =>
      rw [found] at expanded
      cases expanded
  | some callee =>
      rw [found] at expanded
      by_cases arity : callee.inputs.length = call.arguments.length
      · simp only [if_pos arity] at expanded
        obtain ⟨frame, middle, drawn, expanded⟩ := Fresh.bind_ok expanded
        obtain ⟨rfl, rfl⟩ := Fresh.pure_ok expanded
        obtain ⟨fits, draws⟩ := Frame.draw_ok drawn
        exact ⟨callee, frame, rfl, arity, fits, draws, rfl⟩
      · simp only [if_neg arity] at expanded
        cases expanded

theorem inline_ok {registry : Registry} {subject : Variable} {call : Call} {use : Use}
    {supply next : Supply} {body : List Instruction}
    (expanded : inline registry subject call use supply = .ok (body, next)) :
    ∃ draft, StandsFor registry (use.composition subject call) draft body ∧
      supply.Draws draft next := by
  obtain ⟨callee, frame, found, arity, fits, draws, rfl⟩ := inline_block expanded
  exact ⟨frame.draft, .composition _ _ _ _ _ rfl found arity fits, draws⟩

/-- Expansion draws names and yields the block with these names. -/
theorem expansion_ok {registry : Registry} {operation : Operation} {supply next : Supply}
    {body : List Instruction} (synthetic : operation.kind.isBasic = false)
    (expanded : operation.expansion registry supply = .ok (body, next)) :
    ∃ draft, operation.StandsFor registry draft body ∧ supply.Draws draft next := by
  cases operation with
  | increase | decrease | jumpNotZero | neutral => simp [kind, Kind.isBasic, Kind.generation] at synthetic
  | zeroVariable subject =>
      obtain ⟨first, _, firstDrawn, expanded⟩ := Fresh.bind_ok expanded
      obtain ⟨done, _, doneDrawn, expanded⟩ := Fresh.bind_ok expanded
      obtain ⟨spare, _, spareDrawn, expanded⟩ := Fresh.bind_ok expanded
      obtain ⟨rfl, rfl⟩ := Fresh.pure_ok expanded
      exact ⟨_, .zero, ((Fresh.label_ok firstDrawn).trans (Fresh.label_ok doneDrawn)).trans
        (Fresh.work_ok spareDrawn)⟩
  | gotoLabel target =>
      obtain ⟨spare, _, spareDrawn, expanded⟩ := Fresh.bind_ok expanded
      obtain ⟨rfl, rfl⟩ := Fresh.pure_ok expanded
      exact ⟨_, .goto, Fresh.work_ok spareDrawn⟩
  | constantAssignment subject value =>
      obtain ⟨pump, _, pumpDrawn, expanded⟩ := Fresh.bind_ok expanded
      obtain ⟨after, _, afterDrawn, expanded⟩ := Fresh.bind_ok expanded
      obtain ⟨count, _, countDrawn, expanded⟩ := Fresh.bind_ok expanded
      obtain ⟨rfl, rfl⟩ := Fresh.pure_ok expanded
      exact ⟨_, .constant, ((Fresh.label_ok pumpDrawn).trans (Fresh.label_ok afterDrawn)).trans
        (Fresh.work_ok countDrawn)⟩
  | assignment subject source =>
      by_cases same : subject = source
      · subst same
        simp only [expansion, Rules.copy, if_true] at expanded
        obtain ⟨rfl, rfl⟩ := Fresh.pure_ok expanded
        exact ⟨_, .copySelf, .nothing supply⟩
      · simp only [expansion, Rules.copy, if_neg same] at expanded
        obtain ⟨drain, _, drainDrawn, expanded⟩ := Fresh.bind_ok expanded
        obtain ⟨refill, _, refillDrawn, expanded⟩ := Fresh.bind_ok expanded
        obtain ⟨done, _, doneDrawn, expanded⟩ := Fresh.bind_ok expanded
        obtain ⟨store, _, storeDrawn, expanded⟩ := Fresh.bind_ok expanded
        obtain ⟨rfl, rfl⟩ := Fresh.pure_ok expanded
        exact ⟨_, .copy same, (((Fresh.label_ok drainDrawn).trans (Fresh.label_ok refillDrawn)).trans
          (Fresh.label_ok doneDrawn)).trans (Fresh.work_ok storeDrawn)⟩
  | jumpZero subject target =>
      obtain ⟨skip, _, skipDrawn, expanded⟩ := Fresh.bind_ok expanded
      obtain ⟨rfl, rfl⟩ := Fresh.pure_ok expanded
      exact ⟨_, .jumpIfZero, Fresh.label_ok skipDrawn⟩
  | jumpEqualConstant subject value target =>
      obtain ⟨different, _, differentDrawn, expanded⟩ := Fresh.bind_ok expanded
      obtain ⟨rest, _, restDrawn, expanded⟩ := Fresh.bind_ok expanded
      obtain ⟨rfl, rfl⟩ := Fresh.pure_ok expanded
      exact ⟨_, .jumpIfConstant, (Fresh.label_ok differentDrawn).trans (Fresh.work_ok restDrawn)⟩
  | jumpEqualVariable subject other target =>
      obtain ⟨again, _, againDrawn, expanded⟩ := Fresh.bind_ok expanded
      obtain ⟨check, _, checkDrawn, expanded⟩ := Fresh.bind_ok expanded
      obtain ⟨different, _, differentDrawn, expanded⟩ := Fresh.bind_ok expanded
      obtain ⟨left, _, leftDrawn, expanded⟩ := Fresh.bind_ok expanded
      obtain ⟨right, _, rightDrawn, expanded⟩ := Fresh.bind_ok expanded
      obtain ⟨rfl, rfl⟩ := Fresh.pure_ok expanded
      exact ⟨_, .jumpIfEqual, ((((Fresh.label_ok againDrawn).trans (Fresh.label_ok checkDrawn)).trans
        (Fresh.label_ok differentDrawn)).trans (Fresh.work_ok leftDrawn)).trans
        (Fresh.work_ok rightDrawn)⟩
  | quote subject call => exact inline_ok expanded
  | jumpEqualFunction subject call target => exact inline_ok expanded

namespace StandsFor

variable {registry : Registry} {operation : Operation} {draft : Draft} {body : List Instruction}

theorem starts (stands : operation.StandsFor registry draft body) :
    ∃ first rest, body = .plain first :: rest := by
  cases stands <;> exact ⟨_, _, rfl⟩

/-- The function of a composition was found, and it takes as many arguments as it is given. -/
theorem callee (stands : operation.StandsFor registry draft body) {call : Call}
    (calls : operation.call? = some call) :
    ∃ callee, registry[call.function]? = some callee ∧ callee.inputs.length = call.arguments.length := by
  cases stands with
  | composition subject other use callee frame composed found arity fits =>
      subst composed
      cases use <;> cases calls <;> exact ⟨callee, found, arity⟩
  | _ => cases calls

theorem vars_block (stands : operation.StandsFor registry draft body)
    (covered : ∀ {name : String} {callee : Routine}, registry[name]? = some callee → callee.Covered)
    {name : Variable} :
    (∃ instruction ∈ body, name ∈ instruction.operation.vars) ↔
      name ∈ operation.vars ∨ name ∈ draft.works := by
  cases stands with
  | composition subject call use callee frame composed found arity fits =>
      rw [Frame.vars_block fits arity (covered found)]
      subst composed
      cases use <;> simp [Use.composition, vars, Call.vars, or_assoc]
  | _ =>
      simp [vars, Block.zero, Block.goto, Block.constant, Block.copy, Block.jumpIfZero,
        Block.jumpIfConstant, Block.jumpIfEqual, Instruction.plain, Instruction.labeled, or_and_right,
        exists_or] <;> grind

/-- Where the variables of an operation are taken, the names that are drawn for its block are not among them,
and the variables of the block are taken afterwards. -/
theorem vars_taken (stands : operation.StandsFor registry draft body)
    (covered : ∀ {name : String} {callee : Routine}, registry[name]? = some callee → callee.Covered)
    {supply next : Supply} (draws : supply.Draws draft next)
    (taken : ∀ name ∈ operation.vars, .var name ∈ supply.taken) :
    (∀ name ∈ operation.vars, name ∉ draft.works) ∧
      ∀ instruction ∈ body, ∀ name ∈ instruction.operation.vars, .var name ∈ next.taken := by
  refine ⟨fun name occurs drawn => ?_, fun instruction member name occurs => ?_⟩
  · exact draws.avoids.unused _ (Draft.var_mem_names.mpr drawn) (taken name occurs)
  · rw [draws.taken]
    rcases (stands.vars_block covered).mp ⟨instruction, member, occurs⟩ with own | drawn
    · exact .inl (taken name own)
    · exact .inr (Draft.var_mem_names.mpr drawn)

theorem attached_block (stands : operation.StandsFor registry draft body)
    (wellFormed : registry.WellFormed) (named : ∀ label ∈ draft.labels, label.isNamed = true) :
    (attached body).Perm draft.labels := by
  cases stands with
  | composition subject call use callee frame composed found arity fits =>
      exact Frame.attached_block fits named (wellFormed found).resolved
  | _ =>
      simp_all [attached, Block.zero, Block.goto, Block.constant, Block.copy, Block.jumpIfZero,
        Block.jumpIfConstant, Block.jumpIfEqual, Instruction.plain, Instruction.labeled, Label.isNamed]

/-- A named label in a block was drawn for it. -/
theorem label_origin (stands : operation.StandsFor registry draft body) :
    ∀ instruction ∈ body, instruction.label.isNamed = true → instruction.label ∈ draft.labels := by
  cases stands with
  | composition subject call use callee frame composed found arity fits =>
      intro instruction member isNamed
      exact Frame.label_origin fits member isNamed
  | _ =>
      simp [Block.zero, Block.goto, Block.constant, Block.copy, Block.jumpIfZero, Block.jumpIfConstant,
        Block.jumpIfEqual, Instruction.plain, Instruction.labeled, Label.isNamed, or_imp, forall_and]

theorem label_ne_exit (stands : operation.StandsFor registry draft body)
    (wellFormed : registry.WellFormed) (named : ∀ label ∈ draft.labels, label.isNamed = true) :
    ∀ instruction ∈ body, instruction.label ≠ .exit := by
  have drawn : ∀ label ∈ draft.labels, label ≠ .exit := by
    rintro label member rfl
    cases named _ member
  cases stands with
  | composition subject call use callee frame composed found arity fits =>
      intro instruction member
      rcases Frame.mem_block.mp member with rfl | ⟨cleared, inFrame, rfl⟩ |
        ⟨slot, argument, paired, rfl⟩ | ⟨original, inBody, rfl⟩ | rfl
      · exact nofun
      · exact nofun
      · exact nofun
      · cases isNamed : original.label.isNamed with
        | false =>
            rw [Frame.label_copyOf, Frame.renameLabel_of_not_named isNamed]
            exact (wellFormed found).resolved.inner original inBody
        | true =>
            have known : original.label ∈ localLabels callee := Frame.mem_localLabels.mpr
              ⟨original, inBody, Instruction.label_mem_names.mpr ⟨isNamed, .inl rfl⟩⟩
            exact drawn _ (List.mem_append_left _ (Frame.renameLabel_mem fits known))
      · cases leaves : frame.leave with
        | none => simp [Frame.tail, Instruction.labeled, leaves]
        | some leave =>
            have inDraft : leave ∈ frame.draft.labels := by simp [Frame.draft, leaves]
            simpa [Frame.tail, Instruction.labeled, leaves] using drawn leave inDraft
  | _ =>
      simp_all [Block.zero, Block.goto, Block.constant, Block.copy, Block.jumpIfZero,
        Block.jumpIfConstant, Block.jumpIfEqual, Instruction.plain, Instruction.labeled, or_imp,
        forall_and]

/-- A block jumps inside itself or where its operation jumps. -/
theorem target_origin (stands : operation.StandsFor registry draft body)
    (named : ∀ label ∈ draft.labels, label.isNamed = true) :
    ∀ instruction ∈ body, ∀ target, instruction.operation.target? = some target →
      target ≠ .empty → target ∈ draft.labels ∨ operation.target? = some target := by
  cases stands with
  | composition subject call use callee frame composed found arity fits =>
      intro instruction member target jumps nonempty
      subst composed
      cases use <;> exact Frame.target_origin fits named member jumps nonempty
  | _ =>
      simp [target?, Block.zero, Block.goto, Block.constant, Block.copy, Block.jumpIfZero,
        Block.jumpIfConstant, Block.jumpIfEqual, Instruction.plain, Instruction.labeled, or_imp,
        forall_and]

theorem target_kept (stands : operation.StandsFor registry draft body) {target : Label}
    (jumps : operation.target? = some target) :
    ∃ instruction ∈ body, instruction.operation.target? = some target := by
  cases stands with
  | composition subject call use callee frame composed found arity fits =>
      refine ⟨frame.tail subject use, Frame.mem_block.mpr (by simp), ?_⟩
      subst composed
      cases use with
      | assign => cases jumps
      | compare target => exact jumps
  | _ =>
      simp_all [target?, Block.goto, Block.jumpIfZero, Block.jumpIfConstant, Block.jumpIfEqual,
        Instruction.plain, Instruction.labeled, or_and_right, exists_or]

/-- A call in a block is a call of its operation, or it stands for a call in the function of a composition:
it calls the same function with as many arguments. -/
theorem calls_origin (stands : operation.StandsFor registry draft body) :
    ∀ instruction ∈ body, ∀ call, instruction.operation.call? = some call → ∀ inner ∈ call.calls,
      ∃ outer, operation.call? = some outer ∧ (inner ∈ outer.calls ∨
        ∃ callee, registry[outer.function]? = some callee ∧ ∃ original ∈ callee.instructions,
          ∃ source, original.operation.call? = some source ∧ ∃ nested ∈ source.calls,
            inner.function = nested.function ∧ inner.arguments.length = nested.arguments.length) := by
  cases stands with
  | composition subject outer use callee frame composed found arity frameFits =>
      have own : operation.call? = some outer := by
        subst composed
        cases use <;> rfl
      intro instruction member call calls inner inCalls
      refine ⟨outer, own, ?_⟩
      rcases Frame.mem_block.mp member with rfl | ⟨cleared, inFrame, rfl⟩ |
        ⟨slot, argument, paired, rfl⟩ | ⟨original, inBody, rfl⟩ | rfl
      · cases calls
      · cases calls
      · cases argument with
        | var name => cases calls
        | call function arguments =>
            cases calls
            refine .inl (List.mem_cons_of_mem _ ?_)
            rw [Argument.callsAll_eq_flatMap]
            exact List.mem_flatMap_of_mem (List.of_mem_zip paired).2 inCalls
      · rw [Frame.call?_copyOf, Option.map_eq_some_iff] at calls
        obtain ⟨source, calls, rfl⟩ := calls
        rw [Call.calls_mapVars, List.mem_map] at inCalls
        obtain ⟨nested, inCalls, rfl⟩ := inCalls
        refine .inr ⟨callee, found, original, inBody, source, calls, nested, inCalls, rfl, ?_⟩
        simp [Call.mapVars, Argument.mapVarsAll_eq_map]
      · cases use <;> cases calls
  | _ =>
      simp [call?, Block.zero, Block.goto, Block.constant, Block.copy, Block.jumpIfZero,
        Block.jumpIfConstant, Block.jumpIfEqual, Instruction.plain, Instruction.labeled, or_imp,
        forall_and]

theorem calls_fit (stands : operation.StandsFor registry draft body)
    (bodies : ∀ {call callee}, operation.call? = some call →
      registry[call.function]? = some callee → CallsFit registry callee.instructions)
    (fits : ∀ {call}, operation.call? = some call → call.Fits registry) :
    ∀ instruction ∈ body, ∀ call, instruction.operation.call? = some call → call.Fits registry := by
  intro instruction member call calls inner inCalls
  obtain ⟨outer, own, inOuter | ⟨callee, found, original, inBody, source, inSource, nested, inNested, name,
    length⟩⟩ := stands.calls_origin instruction member call calls inner inCalls
  · exact fits own inner inOuter
  · rw [name, length]
    exact bodies own found original inBody source inSource nested inNested

end StandsFor

end Operation

/-! ## Blocks in the place of instructions -/

theorem map_operation_labelFirst (label : Label) (body : List Instruction) :
    (labelFirst label body).map Instruction.operation = body.map Instruction.operation := by
  cases body <;> rfl

theorem exists_of_mem_labelFirst {label : Label} {body : List Instruction} {instruction : Instruction}
    (member : instruction ∈ labelFirst label body) :
    ∃ original ∈ body, original.operation = instruction.operation := by
  have inMap := List.mem_map_of_mem (f := Instruction.operation) member
  rwa [map_operation_labelFirst, List.mem_map] at inMap

theorem forall_mem_labelFirst {label : Label} {body : List Instruction} {P : Operation → Prop}
    (holds : ∀ instruction ∈ body, P instruction.operation) :
    ∀ instruction ∈ labelFirst label body, P instruction.operation := by
  intro instruction member
  obtain ⟨original, inBody, same⟩ := exists_of_mem_labelFirst member
  exact same ▸ holds original inBody

theorem exists_mem_labelFirst (label : Label) (body : List Instruction) (P : Operation → Prop) :
    (∃ instruction ∈ labelFirst label body, P instruction.operation) ↔
      ∃ instruction ∈ body, P instruction.operation := by
  constructor <;> rintro ⟨instruction, member, holds⟩
  · obtain ⟨original, inBody, same⟩ := exists_of_mem_labelFirst member
    exact ⟨original, inBody, same ▸ holds⟩
  · have inMap := List.mem_map_of_mem (f := Instruction.operation) member
    rw [← map_operation_labelFirst label, List.mem_map] at inMap
    obtain ⟨other, inBody, same⟩ := inMap
    exact ⟨other, inBody, same ▸ holds⟩

namespace Instruction

variable {registry : Registry} {instruction : Instruction} {draft : Draft} {body : List Instruction}

theorem attached_unfolded (stands : instruction.operation.StandsFor registry draft body)
    (wellFormed : registry.WellFormed) (named : ∀ label ∈ draft.labels, label.isNamed = true) :
    (attached (labelFirst instruction.label body)).Perm
      ([instruction.label].filter Label.isNamed ++ draft.labels) := by
  have block := stands.attached_block wellFormed named
  obtain ⟨first, rest, rfl⟩ := stands.starts
  rw [labelFirst, attached_cons]
  exact block.append_left _

theorem names_unfolded_subset (stands : instruction.operation.StandsFor registry draft body)
    (covered : ∀ {name : String} {callee : Routine}, registry[name]? = some callee → callee.Covered)
    (named : ∀ label ∈ draft.labels, label.isNamed = true) :
    namesIn (labelFirst instruction.label body) ⊆
      { name | name ∈ instruction.names } ∪ { name | name ∈ draft.names } := by
  rintro name ⟨inner, member, occurs⟩
  cases name with
  | var name =>
      obtain ⟨original, inBody, occurs⟩ :=
        (exists_mem_labelFirst _ _ fun operation => name ∈ operation.vars).mp
          ⟨inner, member, var_mem_names.mp occurs⟩
      rcases (stands.vars_block covered).mp ⟨original, inBody, occurs⟩ with own | drawn
      · exact .inl (var_mem_names.mpr own)
      · exact .inr (Draft.var_mem_names.mpr drawn)
  | label label =>
      obtain ⟨isNamed, rfl | jumps⟩ := label_mem_names.mp occurs
      · obtain ⟨first, rest, rfl⟩ := stands.starts
        rcases List.mem_cons.mp member with rfl | later
        · exact .inl (label_mem_names.mpr ⟨isNamed, .inl rfl⟩)
        · exact .inr (Draft.label_mem_names.mpr
            (stands.label_origin inner (List.mem_cons_of_mem _ later) isNamed))
      · obtain ⟨original, inBody, jumps⟩ :=
          (exists_mem_labelFirst _ _ fun operation => operation.target? = some label).mp
            ⟨inner, member, jumps⟩
        have nonempty : label ≠ .empty := by
          rintro rfl
          cases isNamed
        rcases stands.target_origin named original inBody label jumps nonempty with drawn | own
        · exact .inr (Draft.label_mem_names.mpr drawn)
        · exact .inl (label_mem_names.mpr ⟨isNamed, .inr own⟩)

theorem names_unfolded (stands : instruction.operation.StandsFor registry draft body)
    (wellFormed : registry.WellFormed) (named : ∀ label ∈ draft.labels, label.isNamed = true) :
    namesIn (labelFirst instruction.label body) =
      { name | name ∈ instruction.names } ∪ { name | name ∈ draft.names } := by
  have attachedNames := attached_unfolded stands wellFormed named
  refine Set.Subset.antisymm
    (names_unfolded_subset stands (fun found => (wellFormed found).covered) named) ?_
  intro name found
  cases name with
  | var name =>
      have occurs : name ∈ instruction.operation.vars ∨ name ∈ draft.works := by
        simpa only [Set.mem_union, Set.mem_ofPred_eq, var_mem_names, Draft.var_mem_names] using found
      simp only [mem_namesIn, var_mem_names]
      rw [exists_mem_labelFirst _ _ fun operation => name ∈ operation.vars]
      exact (stands.vars_block fun found => (wellFormed found).covered).mpr occurs
  | label label =>
      rcases found with own | drawn
      · obtain ⟨isNamed, here | jumps⟩ := label_mem_names.mp own
        · have inAttached := attachedNames.mem_iff.mpr
            (List.mem_append_left _ (List.mem_filter.mpr ⟨List.mem_singleton_self _, here ▸ isNamed⟩))
          exact here ▸ attached_subset_names inAttached
        · obtain ⟨inner, member, jumps⟩ :=
            (exists_mem_labelFirst instruction.label _ fun operation =>
              operation.target? = some label).mpr (stands.target_kept jumps)
          exact ⟨inner, member, label_mem_names.mpr ⟨isNamed, .inr jumps⟩⟩
      · exact attached_subset_names
          (attachedNames.mem_iff.mpr (List.mem_append_right _ (Draft.label_mem_names.mp drawn)))

end Instruction

end CounterMachine
