import CounterMachine.Proofs.Resolution
import CounterMachine.Violation
set_option autoImplicit false

/-!
# Accepted sources

A source without violations can be loaded. Its definitions find their labels, their calls are known and pass
the right number of arguments, and the functions that are linked to the main routine call only each other.
Conversely, a definition with these properties may take the place of the main program.
-/

namespace CounterMachine

/-! ## Functions by name -/

/-- What is kept by name for each of some functions: of two with one name, the later counts. -/
theorem getElem?_foldl_insert {α : Type} (kept : Definition → α) (functions : List Definition)
    (entries : Std.ExtTreeMap String α) (name : String) :
    (functions.foldl (fun entries function => entries.insert function.name (kept function)) entries)[name]? =
      ((functions.reverse.find? fun function => function.name = name).map kept).or entries[name]? := by
  induction functions generalizing entries with
  | nil => simp
  | cons function rest ih =>
      rw [List.foldl_cons, ih, List.reverse_cons, List.find?_append]
      cases rest.reverse.find? fun function => function.name = name with
      | some later => simp
      | none =>
          by_cases same : function.name = name <;>
            simp [same, Std.ExtTreeMap.getElem?_insert, Std.LawfulEqCmp.compare_eq_iff_eq]

namespace Registry

theorem getElem?_ofSource (source : Source) (name : String) :
    (ofSource source)[name]? =
      (source.functions.reverse.find? fun function => function.name = name).map Routine.ofDefinition := by
  have entries := getElem?_foldl_insert Routine.ofDefinition source.functions ∅ name
  rwa [Std.ExtTreeMap.getElem?_empty, Option.or_none] at entries

/-! ## Linking -/

/-- Some functions of a registry that call only each other, among them those with the given names. -/
structure Closed (full functions : Registry) (names : List String) : Prop where
  part : ∀ {name : String} {routine : Routine}, functions[name]? = some routine →
    full[name]? = some routine
  names : ∀ name ∈ names, name ∈ functions
  calls : ∀ {name : String} {routine : Routine}, functions[name]? = some routine →
    ∀ called ∈ routine.calledNames, called ∈ functions

theorem Closed.of_resolve {full functions : Registry} {routine : Routine}
    (linked : full.resolve routine = .ok functions) : Closed full functions routine.calledNames where
  part := resolve_part linked
  names := fun name member => (mem_resolve linked).mpr ⟨name, member, .refl⟩
  calls := by
    intro name callee found called member
    have reached := (mem_resolve linked).mp (mem_iff_exists.mpr ⟨callee, found⟩)
    exact (mem_resolve linked).mpr (reached.calls ⟨callee, resolve_part linked found, member⟩)

end Registry

/-! ## Rules of a source -/

theorem Definition.attachmentViolation?_of_earlier {definition : Definition} {earlier later : Nat}
    {instruction : Instruction} (found : definition.body[earlier]? = some instruction)
    (named : instruction.label.isNamed = true) (before : earlier < later) :
    definition.attachmentViolation? later instruction.label ≠ none := by
  cases label : instruction.label with
  | empty | exit =>
      rw [label] at named
      cases named
  | named index =>
      simp only [attachmentViolation?]
      cases place : definition.body.findIdx? fun instruction => instruction.label = .named index with
      | none =>
          have absent := List.findIdx?_eq_none_iff.mp place instruction (List.mem_of_getElem? found)
          simp [label] at absent
      | some position =>
          have least : position ≤ earlier := by
            obtain ⟨inside, _, earliest⟩ := List.findIdx?_eq_some_iff_getElem.mp place
            by_contra beyond
            obtain ⟨_, here⟩ := List.getElem?_eq_some_iff.mp found
            have different := earliest earlier (Nat.lt_of_not_le beyond)
            simp [here, label] at different
          simp only [if_pos (Nat.lt_of_le_of_lt least before)]
          exact nofun

theorem Definition.resolved_body {definition : Definition} (accepted : definition.labelViolations = []) :
    Resolved definition.body := by
  obtain ⟨attachments, targets⟩ := List.append_eq_nil_iff.mp accepted
  rw [List.filterMap_eq_nil_iff] at attachments targets
  have attachment : ∀ {position : Nat} {instruction : Instruction},
      definition.body[position]? = some instruction →
      definition.attachmentViolation? position instruction.label = none := by
    intro position instruction found
    exact attachments (instruction, position) (List.mem_zipIdx_iff_getElem?.mpr found)
  have first : ∀ {earlier later : Nat} {left right : Instruction},
      definition.body[earlier]? = some left → definition.body[later]? = some right →
      left.label = right.label → left.label.isNamed = true → ¬ earlier < later := by
    intro earlier later left right atEarlier atLater same named before
    exact attachmentViolation?_of_earlier atEarlier named before (same ▸ attachment atLater)
  constructor
  · refine attached_nodup fun {left right _ _} atLeft atRight same named => ?_
    rcases Nat.lt_trichotomy left right with less | equal | greater
    · exact (first atLeft atRight same named less).elim
    · exact equal
    · exact (first atRight atLeft same.symm (same ▸ named) greater).elim
  · intro instruction member exit
    obtain ⟨position, found⟩ := List.mem_iff_getElem?.mp member
    have none := attachment found
    rw [exit] at none
    cases none
  · intro instruction member target jumps named
    obtain ⟨position, found⟩ := List.mem_iff_getElem?.mp member
    have none := targets (instruction, position) (List.mem_zipIdx_iff_getElem?.mpr found)
    simp only [Instruction.target?, jumps, Option.bind_some, Definition.targetViolation?, named,
      Bool.true_and] at none
    split at none
    · cases none
    · next present =>
        rw [Bool.not_eq_true, Bool.not_eq_false', List.any_eq_true] at present
        obtain ⟨place, inBody, label⟩ := present
        exact mem_attached.mpr ⟨named, place, inBody, by simpa using label⟩

theorem Source.callsFit {source : Source} {definition : Definition}
    (accepted : source.callViolations definition = []) :
    CallsFit (.ofSource source) definition.body := by
  intro instruction member call calls inner inCalls
  obtain ⟨position, found⟩ := List.mem_iff_getElem?.mp member
  have none := List.flatMap_eq_nil_iff.mp accepted (instruction, position)
    (List.mem_zipIdx_iff_getElem?.mpr found)
  simp only [Instruction.call?, calls, Option.toList_some, List.flatMap_singleton,
    List.filterMap_eq_nil_iff] at none
  have fits := none inner inCalls
  rw [Registry.getElem?_ofSource]
  simp only [Source.callViolation?, Source.arity?] at fits
  cases callee : source.functions.reverse.find? fun function => function.name = inner.function with
  | none => simp [callee] at fits
  | some function =>
      simp only [callee, Option.map_some] at fits
      split at fits
      · next arity => exact ⟨.ofDefinition function, rfl, arity⟩
      · cases fits

/-! ## Other main programs -/

namespace Definition

variable {definition : Definition} {position : Nat} {instruction : Instruction}

theorem attachmentViolation?_eq_none (resolved : Resolved definition.body)
    (found : definition.body[position]? = some instruction) :
    definition.attachmentViolation? position instruction.label = none := by
  cases label : instruction.label with
  | empty => rfl
  | exit => exact (resolved.inner instruction (List.mem_of_getElem? found) label).elim
  | named index =>
      simp only [attachmentViolation?]
      cases place : definition.body.findIdx? fun instruction => instruction.label = .named index with
      | none => rfl
      | some first =>
          obtain ⟨inside, labeled, _⟩ := List.findIdx?_eq_some_iff_getElem.mp place
          have there := of_decide_eq_true labeled
          have same : first = position := place_unique resolved.unique (List.getElem?_eq_getElem inside)
            found (there.trans label.symm) (by rw [there]; rfl)
          exact if_neg (same ▸ Nat.lt_irrefl first)

theorem targetViolation?_eq_none (resolved : Resolved definition.body)
    (member : instruction ∈ definition.body) {target : Label}
    (jumps : instruction.target? = some target) : definition.targetViolation? position target = none := by
  refine if_neg fun undefined => ?_
  rw [Bool.and_eq_true, Bool.not_eq_true', List.any_eq_false] at undefined
  obtain ⟨named, absent⟩ := undefined
  obtain ⟨_, place, inBody, label⟩ := mem_attached.mp (resolved.defined member jumps named)
  exact absent place inBody (decide_eq_true label)

theorem labelViolations_eq_nil (resolved : Resolved definition.body) : definition.labelViolations = [] := by
  rw [labelViolations, List.append_eq_nil_iff, List.filterMap_eq_nil_iff, List.filterMap_eq_nil_iff]
  constructor
  · rintro ⟨instruction, position⟩ member
    exact attachmentViolation?_eq_none resolved (List.mem_zipIdx_iff_getElem?.mp member)
  · rintro ⟨instruction, position⟩ member
    have inBody := List.mem_of_getElem? (List.mem_zipIdx_iff_getElem?.mp member)
    exact Option.bind_eq_none_iff.mpr fun target jumps => targetViolation?_eq_none resolved inBody jumps

end Definition

theorem Source.callViolations_eq_nil {source : Source} {definition : Definition}
    (fit : CallsFit (.ofSource source) definition.body) : source.callViolations definition = [] := by
  rw [Source.callViolations, List.flatMap_eq_nil_iff]
  rintro ⟨instruction, position⟩ member
  rw [List.filterMap_eq_nil_iff]
  intro inner nested
  obtain ⟨call, calls, nested⟩ := List.mem_flatMap.mp nested
  obtain ⟨callee, found, arity⟩ := fit instruction
    (List.mem_of_getElem? (List.mem_zipIdx_iff_getElem?.mp member)) call (Option.mem_toList.mp calls) inner
    nested
  rw [Registry.getElem?_ofSource, Option.map_eq_some_iff] at found
  obtain ⟨function, known, rfl⟩ := found
  simp only [callViolation?, arity?, known, Option.map_some]
  exact if_pos arity

theorem Source.body_ne_nil {source : Source} (accepted : source.violations = []) :
    source.program.body ≠ [] := by
  simp only [violations, emptyDefinitions, definitions, List.append_eq_nil_iff, List.map_eq_nil_iff,
    List.filter_eq_nil_iff, List.forall_mem_cons, List.isEmpty_iff] at accepted
  exact accepted.1.1.1.1

/-- Another main program may take the place of the main program if it keeps the rules. -/
theorem Source.accepted_of_program {source : Source} {program : Definition}
    (accepted : source.violations = []) (nonempty : program.body ≠ []) (resolved : Resolved program.body)
    (fit : CallsFit (.ofSource source) program.body) :
    violations ⟨program, source.functions⟩ = [] := by
  simp only [violations, definitions, List.append_eq_nil_iff, List.flatMap_eq_nil_iff,
    List.forall_mem_cons] at accepted ⊢
  obtain ⟨⟨⟨filled, distinct⟩, _, labels⟩, _, calls⟩ := accepted
  refine ⟨⟨⟨?_, distinct⟩, Definition.labelViolations_eq_nil resolved, labels⟩,
    callViolations_eq_nil fit, calls⟩
  simp only [emptyDefinitions, definitions, List.map_eq_nil_iff, List.filter_eq_nil_iff,
    List.forall_mem_cons, List.isEmpty_iff] at filled ⊢
  exact ⟨nonempty, filled.2⟩

/-! ## Definitions in working order -/

namespace Routine

theorem wellFormed_ofDefinition {registry : Registry} {definition : Definition}
    (resolved : Resolved definition.body) (fit : CallsFit registry definition.body) :
    (ofDefinition definition).WellFormed registry where
  present := (Frontier.ofDefinition registry definition).present
  resolved := by rwa [instructions_ofDefinition]
  calls := by rwa [instructions_ofDefinition]
  positions := rfl
  distinct := (covered_ofDefinition definition).distinct
  known := (covered_ofDefinition definition).known

end Routine

theorem CallsFit.mono {registry larger : Registry} {code : List Instruction}
    (fit : CallsFit registry code)
    (part : ∀ {name : String} {routine : Routine}, registry[name]? = some routine →
      larger[name]? = some routine) : CallsFit larger code := by
  intro instruction member call calls inner nested
  obtain ⟨callee, found, arity⟩ := fit instruction member call calls inner nested
  exact ⟨callee, part found, arity⟩

theorem CallsFit.linked {full functions : Registry} {routine : Routine} {names : List String}
    (closed : Registry.Closed full functions names) (fit : CallsFit full routine.instructions)
    (present : ∀ name ∈ routine.calledNames, name ∈ functions) :
    CallsFit functions routine.instructions := by
  intro instruction member call calls inner nested
  obtain ⟨callee, found, arity⟩ := fit instruction member call calls inner nested
  have inFunctions := present inner.function (Routine.mem_calledNames.mpr
    ⟨instruction, member, Operation.mem_calledNames.mpr ⟨call, calls, inner, nested, rfl⟩⟩)
  rw [← Std.ExtTreeMap.isSome_getElem?_iff_mem] at inFunctions
  obtain ⟨linked, linkedFound⟩ := Option.isSome_iff_exists.mp inFunctions
  have same := closed.part linkedFound
  rw [found] at same
  cases same
  exact ⟨callee, linkedFound, arity⟩

theorem Routine.mem_of_calledNames {registry : Registry} {routine : Routine}
    (fit : CallsFit registry routine.instructions) :
    ∀ name ∈ routine.calledNames, name ∈ registry := by
  intro name member
  obtain ⟨instruction, inCode, called⟩ := mem_calledNames.mp member
  obtain ⟨call, calls, inner, nested, rfl⟩ := Operation.mem_calledNames.mp called
  obtain ⟨callee, found, _⟩ := fit instruction inCode call calls inner nested
  rw [← Std.ExtTreeMap.isSome_getElem?_iff_mem, found]
  rfl

/-- Every function that is reached is known, if the calls of the routine and of the reached functions are. -/
theorem Registry.Reached.known {registry : Registry} {routine : Routine} {name : String}
    (reached : registry.Reached routine.calledNames name) (fit : CallsFit registry routine.instructions)
    (bodies : ∀ {caller : String} {function : Routine}, registry.Reached routine.calledNames caller →
      registry[caller]? = some function → CallsFit registry function.instructions) : name ∈ registry := by
  obtain ⟨first, member, path⟩ := reached
  cases path.cases_tail with
  | inl same => exact Routine.mem_of_calledNames fit name (same ▸ member)
  | inr last =>
      obtain ⟨caller, before, callee, found, called⟩ := last
      exact Routine.mem_of_calledNames (bodies ⟨first, member, before⟩ found) name called

/-- A source without violations loads, and all that it runs is well formed. -/
theorem Program.load_wellFormed {source : Source} (accepted : source.violations = []) :
    ∃ program, load source = .ok program ∧ program.main = .ofDefinition source.program ∧
      program.functions.WellFormed ∧ Resolved source.program.body ∧
      CallsFit program.functions source.program.body := by
  simp only [Source.violations, List.append_eq_nil_iff, List.flatMap_eq_nil_iff] at accepted
  obtain ⟨⟨_, labels⟩, calls⟩ := accepted
  have resolved : ∀ definition ∈ source.definitions, Resolved definition.body := fun definition member =>
    Definition.resolved_body (labels definition member)
  have fit : ∀ definition ∈ source.definitions,
      CallsFit (.ofSource source) (Routine.ofDefinition definition).instructions := by
    intro definition member
    rw [Routine.instructions_ofDefinition]
    exact Source.callsFit (calls definition member)
  have origin : ∀ {name : String} {routine : Routine}, (Registry.ofSource source)[name]? = some routine →
      ∃ definition ∈ source.definitions, routine = .ofDefinition definition := by
    intro name routine found
    rw [Registry.getElem?_ofSource, Option.map_eq_some_iff] at found
    obtain ⟨definition, present, rfl⟩ := found
    have member := List.mem_reverse.mp (List.mem_of_find?_eq_some present)
    exact ⟨definition, List.mem_cons_of_mem _ member, rfl⟩
  have known : ∀ name, (Registry.ofSource source).Reached
      (Routine.ofDefinition source.program).calledNames name → name ∈ Registry.ofSource source := by
    intro name reached
    refine reached.known (fit source.program List.mem_cons_self) fun _ found => ?_
    obtain ⟨definition, inSource, rfl⟩ := origin found
    exact fit definition inSource
  obtain ⟨functions, linked⟩ := Registry.exists_resolve known
  have closed := Registry.Closed.of_resolve linked
  refine ⟨⟨.ofDefinition source.program, functions⟩, ?_, rfl, ?_, resolved _ List.mem_cons_self, ?_⟩
  · rw [load, link, linked]
    rfl
  · intro name routine found
    obtain ⟨definition, member, rfl⟩ := origin (closed.part found)
    refine Routine.wellFormed_ofDefinition (resolved definition member) ?_
    have inner := CallsFit.linked closed (fit definition member) (closed.calls found)
    rwa [Routine.instructions_ofDefinition] at inner
  · have inner := CallsFit.linked closed (fit source.program List.mem_cons_self) closed.names
    rwa [Routine.instructions_ofDefinition] at inner

/-- A main program that calls a function, and starts again if the result is 0. -/
def sampleSource : Source :=
  ⟨⟨"Main", [.labeled (.named 1) (.quote .result ⟨"Successor", [.var (.input 1)]⟩),
      .plain (.jumpZero .result (.named 1))]⟩,
    [⟨"Successor", [.plain (.assignment .result (.input 1)), .plain (.increase .result)]⟩]⟩

theorem sampleSource_accepted : sampleSource.violations = [] := by
  decide

end CounterMachine
