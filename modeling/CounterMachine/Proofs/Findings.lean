import CounterMachine.Proofs.CallText
import CounterMachine.Proofs.Rules
import CounterMachine.Proofs.Verification
set_option autoImplicit false

/-!
# Findings of verification

Verification reports every broken rule once, in the order of the sites where rules are broken, and accepts a
source if and only if no rule is broken.
-/

namespace CounterMachine

/-! ## Lists of findings -/

/-- Violations with the sites where they were found. -/
abbrev Findings := List (Site × Violation)

namespace Findings

/-- What is found at one place. -/
def here (violation? : Option Violation) : Findings :=
  violation?.toList.map fun violation => ([], violation)

/-- Findings inside the place with a number. -/
def under (number : Nat) (findings : Findings) : Findings :=
  findings.map fun (site, violation) => (number :: site, violation)

/-- What is found in some items, each with its number. -/
def gather {α : Type} (items : List α) (report : α → Nat → Findings) : Findings :=
  items.zipIdx.flatMap fun (item, number) => (report item number).under number

/-- What is found in some stages, each with its number. -/
def inTurn (stages : List Findings) : Findings :=
  gather stages fun stage _ => stage

/-- Findings in the order of their addresses, no two of them at one site. -/
def Ordered (findings : Findings) : Prop :=
  findings.Pairwise fun first second => first.1 < second.1

variable {α : Type} {items : List α} {report : α → Nat → Findings}

theorem mem_here {violation? : Option Violation} {site : Site} {violation : Violation} :
    (site, violation) ∈ here violation? ↔ site = [] ∧ violation? = some violation := by
  simp [here, eq_comm, and_comm]

theorem mem_gather {site : Site} {violation : Violation} :
    (site, violation) ∈ gather items report ↔ ∃ number rest item, site = number :: rest ∧
      items[number]? = some item ∧ (rest, violation) ∈ report item number := by
  simp only [gather, under, List.mem_flatMap, List.mem_map, Prod.exists, List.mem_zipIdx_iff_getElem?,
    Prod.mk.injEq]
  constructor
  · rintro ⟨item, number, found, rest, _, member, rfl, rfl⟩
    exact ⟨number, rest, item, rfl, found, member⟩
  · rintro ⟨number, rest, item, rfl, found, member⟩
    exact ⟨item, number, found, rest, violation, member, rfl, rfl⟩

theorem mem_gather_here {report : α → Nat → Option Violation} {site : Site} {violation : Violation} :
    (site, violation) ∈ gather items (fun item number => here (report item number)) ↔
      ∃ number item, site = [number] ∧ items[number]? = some item ∧ report item number = some violation := by
  simp only [mem_gather, mem_here]
  constructor
  · rintro ⟨number, _, item, rfl, found, rfl, reported⟩
    exact ⟨number, item, rfl, found, reported⟩
  · rintro ⟨number, item, rfl, found, reported⟩
    exact ⟨number, [], item, rfl, found, rfl, reported⟩

theorem mem_inTurn {stages : List Findings} {site : Site} {violation : Violation} :
    (site, violation) ∈ inTurn stages ↔ ∃ number rest stage, site = number :: rest ∧
      stages[number]? = some stage ∧ (rest, violation) ∈ stage :=
  mem_gather

theorem ordered_here (violation? : Option Violation) : Ordered (here violation?) := by
  cases violation? <;> simp [Ordered, here]

theorem ordered_gather (each : ∀ item ∈ items, ∀ number, Ordered (report item number)) :
    Ordered (gather items report) := by
  have numbers : items.zipIdx.Pairwise fun first second => first.2 < second.2 := by
    have ascending : (items.zipIdx.map Prod.snd).Pairwise (· < ·) := by
      rw [List.zipIdx_map_snd]
      exact List.pairwise_lt_range'
    exact List.pairwise_map.mp ascending
  refine List.pairwise_flatMap.mpr ⟨fun place member => ?_, numbers.imp fun {first second} less => ?_⟩
  · have inside := each place.1 (List.mem_of_getElem? (List.mem_zipIdx_iff_getElem?.mp member)) place.2
    refine List.pairwise_map.mpr (inside.imp fun less => ?_)
    exact List.cons_lt_cons_iff.mpr (.inr ⟨rfl, less⟩)
  · intro left inLeft right inRight
    obtain ⟨_, _, rfl⟩ := List.mem_map.mp inLeft
    obtain ⟨_, _, rfl⟩ := List.mem_map.mp inRight
    exact List.cons_lt_cons_iff.mpr (.inl less)

theorem ordered_gather_here (items : List α) (report : α → Nat → Option Violation) :
    Ordered (gather items fun item number => here (report item number)) :=
  ordered_gather fun _ _ _ => ordered_here _

theorem ordered_inTurn {stages : List Findings} (each : ∀ stage ∈ stages, Ordered stage) :
    Ordered (inTurn stages) :=
  ordered_gather fun stage member _ => each stage member

theorem map_snd_here (violation? : Option Violation) :
    (here violation?).map Prod.snd = violation?.toList := by
  simp [here, Function.comp_def]

theorem map_snd_gather (items : List α) (report : α → Nat → Findings) :
    (gather items report).map Prod.snd =
      items.zipIdx.flatMap fun (item, number) => (report item number).map Prod.snd := by
  simp [gather, under, List.map_flatMap, Function.comp_def]

theorem map_snd_gather_here (items : List α) (report : α → Nat → Option Violation) :
    (gather items fun item number => here (report item number)).map Prod.snd =
      items.zipIdx.filterMap fun (item, number) => report item number := by
  simp only [map_snd_gather, map_snd_here, List.filterMap_eq_flatMap_toList]

theorem map_snd_gather_items (items : List α) (report : α → Findings) :
    (gather items fun item _ => report item).map Prod.snd =
      items.flatMap fun item => (report item).map Prod.snd := by
  rw [map_snd_gather]
  have unnumbered := List.flatMap_map Prod.fst (fun item => (report item).map Prod.snd) (l := items.zipIdx)
  rw [← unnumbered, List.zipIdx_map_fst]

theorem map_snd_inTurn (stages : List Findings) :
    (inTurn stages).map Prod.snd = stages.flatMap fun stage => stage.map Prod.snd :=
  map_snd_gather_items stages id

end Findings

/-! ## Findings in calls -/

namespace Argument

mutual

/-- What is found at the calls in an argument. -/
def findings (violation? : Call → Option Violation) : Argument → Findings
  | .var _ => []
  | .call function arguments =>
      Findings.here (violation? ⟨function, arguments⟩) ++ findingsAll violation? 0 arguments

/-- What is found in arguments that are numbered from a number on. -/
def findingsAll (violation? : Call → Option Violation) (number : Nat) : List Argument → Findings
  | [] => []
  | argument :: rest =>
      (argument.findings violation?).under number ++ findingsAll violation? (number + 1) rest

end

variable {violation? : Call → Option Violation}

theorem findings_call (function : String) (arguments : List Argument) :
    (call function arguments).findings violation? = Findings.here (violation? ⟨function, arguments⟩) ++
      Findings.gather arguments fun argument _ => argument.findings violation? := by
  have numbered : ∀ (rest : List Argument) (number : Nat), findingsAll violation? number rest =
      (rest.zipIdx number).flatMap fun (argument, place) => (argument.findings violation?).under place := by
    intro rest
    induction rest with
    | nil => exact fun _ => rfl
    | cons argument rest ih =>
        intro number
        simp only [findingsAll, ih, List.zipIdx_cons, List.flatMap_cons]
  rw [findings, numbered, Findings.gather]

theorem ordered_findings (argument : Argument) : (argument.findings violation?).Ordered := by
  induction argument using Argument.induction with
  | var name => exact .nil
  | call function arguments ih =>
      rw [findings_call]
      refine List.pairwise_append.mpr ⟨Findings.ordered_here _, Findings.ordered_gather fun argument member _ =>
        ih argument member, ?_⟩
      rintro ⟨outer, _⟩ atCall ⟨inner, _⟩ inArguments
      obtain ⟨rfl, _⟩ := Findings.mem_here.mp atCall
      obtain ⟨_, _, _, rfl, _⟩ := Findings.mem_gather.mp inArguments
      exact List.nil_lt_cons _ _

theorem mem_findings {argument : Argument} {path : Site} {violation : Violation} :
    (path, violation) ∈ argument.findings violation? ↔ ∃ function arguments,
      argument.at? path = some (.call function arguments) ∧
        violation? ⟨function, arguments⟩ = some violation := by
  induction argument using Argument.induction generalizing path with
  | var name => cases path <;> simp [findings, at?]
  | call function arguments ih =>
      rw [findings_call, List.mem_append, Findings.mem_here, Findings.mem_gather]
      cases path with
      | nil => simp [at?]
      | cons number path =>
          simp only [at?, Option.bind_eq_some_iff]
          constructor
          · rintro (⟨impossible, _⟩ | ⟨_, _, argument, same, found, member⟩)
            · cases impossible
            · cases same
              obtain ⟨function, arguments, place, violates⟩ := (ih _ (List.mem_of_getElem? found)).mp member
              exact ⟨function, arguments, ⟨argument, found, place⟩, violates⟩
          · rintro ⟨function, arguments, ⟨argument, found, place⟩, violates⟩
            exact .inr ⟨number, path, argument, rfl, found,
              (ih _ (List.mem_of_getElem? found)).mpr ⟨function, arguments, place, violates⟩⟩

theorem map_snd_findings (argument : Argument) :
    (argument.findings violation?).map Prod.snd = argument.calls.filterMap violation? := by
  induction argument using Argument.induction with
  | var name => rfl
  | call function arguments ih =>
      have inner : (Findings.gather arguments fun argument _ => argument.findings violation?).map Prod.snd =
          (callsAll arguments).filterMap violation? := by
        rw [Findings.map_snd_gather_items, callsAll_eq_flatMap, List.filterMap_flatMap]
        exact List.flatMap_congr ih
      rw [findings_call, List.map_append, Findings.map_snd_here, inner, calls, List.filterMap_cons]
      cases violation? ⟨function, arguments⟩ <;> rfl

end Argument

/-! ## Findings in a source -/

namespace Definition

def attachmentFindings (definition : Definition) : Findings :=
  .gather definition.body fun instruction position =>
    .here (definition.attachmentViolation? position instruction.label)

def targetFindings (definition : Definition) : Findings :=
  .gather definition.body fun instruction position =>
    .here (instruction.target?.bind (definition.targetViolation? position))

def labelFindings (definition : Definition) : Findings :=
  .inTurn [definition.attachmentFindings, definition.targetFindings]

def callFindings (source : Source) (definition : Definition) : Findings :=
  .gather definition.body fun instruction position =>
    instruction.call?.elim [] fun call =>
      call.toArgument.findings (source.callViolation? definition.name position)

end Definition

namespace Source

def emptyFindings (source : Source) : Findings :=
  .gather source.definitions fun definition _ =>
    .here (if definition.body = [] then some (.emptyDefinition definition.name) else none)

def repeatedFindings (source : Source) : Findings :=
  .gather source.functions fun function number =>
    .here (if ((source.functions.take number).map Definition.name).count function.name = 1 then
      some (.duplicateFunction function.name) else none)

/-- All that is found in a source. -/
def findings (source : Source) : Findings :=
  .inTurn [source.emptyFindings, source.repeatedFindings,
    .gather source.definitions fun definition _ => definition.labelFindings,
    .gather source.definitions fun definition _ => definition.callFindings source]

end Source

namespace Source

variable {source : Source} {site : Site} {violation : Violation}

theorem ordered_findings (source : Source) : source.findings.Ordered := by
  have labels (definition : Definition) : definition.labelFindings.Ordered := by
    apply Findings.ordered_inTurn
    simp only [List.forall_mem_cons]
    exact ⟨Findings.ordered_gather_here _ _, Findings.ordered_gather_here _ _, nofun⟩
  have calls (definition : Definition) : (definition.callFindings source).Ordered := by
    apply Findings.ordered_gather
    intro instruction _ position
    cases instruction.call? with
    | none => exact .nil
    | some call => exact call.toArgument.ordered_findings
  apply Findings.ordered_inTurn
  simp only [List.forall_mem_cons]
  exact ⟨Findings.ordered_gather_here _ _, Findings.ordered_gather_here _ _,
    Findings.ordered_gather fun definition _ _ => labels definition,
    Findings.ordered_gather fun definition _ _ => calls definition, nofun⟩

theorem map_snd_emptyFindings (source : Source) :
    source.emptyFindings.map Prod.snd = source.emptyDefinitions := by
  have reported := Findings.map_snd_gather_items source.definitions fun definition =>
    .here (if definition.body = [] then some (.emptyDefinition definition.name) else none)
  simp only [emptyFindings, reported, Findings.map_snd_here, ← List.filterMap_eq_flatMap_toList,
    emptyDefinitions]
  rw [← List.filterMap_eq_map, List.filterMap_filter]
  simp

theorem map_snd_repeatedFindings (source : Source) :
    source.repeatedFindings.map Prod.snd = source.duplicateFunctions := by
  simp only [repeatedFindings, Findings.map_snd_gather_here, duplicateFunctions, List.map_take]
  rw [List.zipIdx_map, ← congrFun List.filterMap_eq_map (List.filter _ _), List.filterMap_filter,
    List.filterMap_map]
  simp

theorem map_snd_findings (source : Source) : source.findings.map Prod.snd = source.violations := by
  have labels (definition : Definition) :
      definition.labelFindings.map Prod.snd = definition.labelViolations := by
    simp only [Definition.labelFindings, Findings.map_snd_inTurn, List.flatMap_cons, List.flatMap_nil,
      List.append_nil, Definition.attachmentFindings, Definition.targetFindings,
      Findings.map_snd_gather_here, Definition.labelViolations]
  have calls (definition : Definition) :
      (definition.callFindings source).map Prod.snd = source.callViolations definition := by
    rw [Definition.callFindings, Findings.map_snd_gather, callViolations]
    apply List.flatMap_congr
    intro place _
    dsimp only
    cases place.1.call? with
    | none => rfl
    | some call =>
        simp only [Option.elim_some, Option.toList_some, List.flatMap_singleton]
        exact call.toArgument.map_snd_findings
  simp only [findings, Findings.map_snd_inTurn, List.flatMap_cons, List.flatMap_nil, List.append_nil,
    map_snd_emptyFindings, map_snd_repeatedFindings, Findings.map_snd_gather_items, labels, calls, violations,
    List.append_assoc]

theorem breaks_of_empty {rest : Site} (member : (rest, violation) ∈ source.emptyFindings) :
    source.Breaks (0 :: rest) violation := by
  obtain ⟨number, definition, rfl, defined, reported⟩ := Findings.mem_gather_here.mp member
  obtain ⟨nothing, same⟩ := Option.ite_none_right_eq_some.mp reported
  cases same
  exact .empty defined nothing

theorem breaks_of_repeated {rest : Site} (member : (rest, violation) ∈ source.repeatedFindings) :
    source.Breaks (1 :: rest) violation := by
  obtain ⟨number, function, rfl, defined, reported⟩ := Findings.mem_gather_here.mp member
  obtain ⟨second, same⟩ := Option.ite_none_right_eq_some.mp reported
  cases same
  exact .repeated defined second

theorem breaks_of_attachment {number : Nat} {definition : Definition} {rest : Site}
    (defined : source.definitions[number]? = some definition)
    (member : (rest, violation) ∈ definition.attachmentFindings) :
    source.Breaks (2 :: number :: 0 :: rest) violation := by
  obtain ⟨position, instruction, rfl, placed, reported⟩ := Findings.mem_gather_here.mp member
  obtain ⟨label, rfl⟩ | ⟨named, first, before, place, rfl⟩ :=
    Definition.attachmentViolation?_eq_some.mp reported
  · exact .exit defined placed label
  · obtain ⟨earlier, placedFirst, same, least⟩ := Definition.findIdx?_label.mp place
    exact .attachedBefore defined placed named before placedFirst same least

theorem breaks_of_target {number : Nat} {definition : Definition} {rest : Site}
    (defined : source.definitions[number]? = some definition)
    (member : (rest, violation) ∈ definition.targetFindings) :
    source.Breaks (2 :: number :: 1 :: rest) violation := by
  obtain ⟨position, instruction, rfl, placed, reported⟩ := Findings.mem_gather_here.mp member
  obtain ⟨target, jumps, reported⟩ := Option.bind_eq_some_iff.mp reported
  obtain ⟨named, absent, rfl⟩ := Definition.targetViolation?_eq_some.mp reported
  exact .nowhere defined placed jumps named absent

theorem breaks_of_call {number : Nat} {definition : Definition} {rest : Site}
    (defined : source.definitions[number]? = some definition)
    (member : (rest, violation) ∈ definition.callFindings source) :
    source.Breaks (3 :: number :: rest) violation := by
  obtain ⟨position, path, instruction, rfl, placed, member⟩ := Findings.mem_gather.mp member
  cases calls : instruction.call? with
  | none => simp [calls] at member
  | some outer =>
      simp only [calls, Option.elim_some] at member
      obtain ⟨called, arguments, inside, reported⟩ := Argument.mem_findings.mp member
      obtain ⟨missing, rfl⟩ | ⟨function, known, differs, rfl⟩ := callViolation?_eq_some.mp reported
      · exact .unknown defined placed calls inside missing
      · exact .arity defined placed calls inside known differs

theorem breaks_of_mem (member : (site, violation) ∈ source.findings) : source.Breaks site violation := by
  obtain ⟨stage, rest, found, rfl, known, member⟩ := Findings.mem_inTurn.mp member
  match stage with
  | 0 =>
      cases known
      exact breaks_of_empty member
  | 1 =>
      cases known
      exact breaks_of_repeated member
  | 2 =>
      cases known
      obtain ⟨number, rest, definition, rfl, defined, member⟩ := Findings.mem_gather.mp member
      obtain ⟨part, rest, found, rfl, known, member⟩ := Findings.mem_inTurn.mp member
      match part with
      | 0 =>
          cases known
          exact breaks_of_attachment defined member
      | 1 =>
          cases known
          exact breaks_of_target defined member
      | _ + 2 => cases known
  | 3 =>
      cases known
      obtain ⟨number, rest, definition, rfl, defined, member⟩ := Findings.mem_gather.mp member
      exact breaks_of_call defined member
  | _ + 4 => cases known

theorem mem_findings_of_attachment {number position : Nat} {definition : Definition}
    {instruction : Instruction} (defined : source.definitions[number]? = some definition)
    (placed : definition.body[position]? = some instruction)
    (reported : definition.attachmentViolation? position instruction.label = some violation) :
    (Site.attachment number position, violation) ∈ source.findings := by
  have inStage : ([position], violation) ∈ definition.attachmentFindings :=
    Findings.mem_gather_here.mpr ⟨position, instruction, rfl, placed, reported⟩
  have inLabels : ([0, position], violation) ∈ definition.labelFindings :=
    Findings.mem_inTurn.mpr ⟨0, [position], _, rfl, rfl, inStage⟩
  exact Findings.mem_inTurn.mpr ⟨2, _, _, rfl, rfl,
    Findings.mem_gather.mpr ⟨number, [0, position], definition, rfl, defined, inLabels⟩⟩

theorem mem_findings_of_target {number position : Nat} {definition : Definition}
    {instruction : Instruction} {target : Label} (defined : source.definitions[number]? = some definition)
    (placed : definition.body[position]? = some instruction) (jumps : instruction.target? = some target)
    (reported : definition.targetViolation? position target = some violation) :
    (Site.target number position, violation) ∈ source.findings := by
  have inStage : ([position], violation) ∈ definition.targetFindings :=
    Findings.mem_gather_here.mpr
      ⟨position, instruction, rfl, placed, Option.bind_eq_some_iff.mpr ⟨target, jumps, reported⟩⟩
  have inLabels : ([1, position], violation) ∈ definition.labelFindings :=
    Findings.mem_inTurn.mpr ⟨1, [position], _, rfl, rfl, inStage⟩
  exact Findings.mem_inTurn.mpr ⟨2, _, _, rfl, rfl,
    Findings.mem_gather.mpr ⟨number, [1, position], definition, rfl, defined, inLabels⟩⟩

theorem mem_findings_of_call {number position : Nat} {path : List Nat} {definition : Definition}
    {instruction : Instruction} {outer : Call} {called : String} {arguments : List Argument}
    (defined : source.definitions[number]? = some definition)
    (placed : definition.body[position]? = some instruction) (calls : instruction.call? = some outer)
    (inside : outer.toArgument.at? path = some (.call called arguments))
    (reported : source.callViolation? definition.name position ⟨called, arguments⟩ = some violation) :
    (Site.call number position path, violation) ∈ source.findings := by
  have inCall : (path, violation) ∈
      outer.toArgument.findings (source.callViolation? definition.name position) :=
    Argument.mem_findings.mpr ⟨called, arguments, inside, reported⟩
  have inCalls : (position :: path, violation) ∈ definition.callFindings source :=
    Findings.mem_gather.mpr ⟨position, path, instruction, rfl, placed, by rwa [calls]⟩
  exact Findings.mem_inTurn.mpr ⟨3, _, _, rfl, rfl,
    Findings.mem_gather.mpr ⟨number, position :: path, definition, rfl, defined, inCalls⟩⟩

theorem Breaks.mem_findings (breaks : source.Breaks site violation) :
    (site, violation) ∈ source.findings := by
  cases breaks with
  | empty defined nothing =>
      exact Findings.mem_inTurn.mpr ⟨0, _, _, rfl, rfl,
        Findings.mem_gather_here.mpr ⟨_, _, rfl, defined, if_pos nothing⟩⟩
  | repeated defined second =>
      exact Findings.mem_inTurn.mpr ⟨1, _, _, rfl, rfl,
        Findings.mem_gather_here.mpr ⟨_, _, rfl, defined, if_pos second⟩⟩
  | exit defined placed label =>
      exact mem_findings_of_attachment defined placed
        (Definition.attachmentViolation?_eq_some.mpr (.inl ⟨label, rfl⟩))
  | attachedBefore defined placed named before placedFirst same least =>
      have place := Definition.findIdx?_label.mpr ⟨_, placedFirst, same, least⟩
      exact mem_findings_of_attachment defined placed
        (Definition.attachmentViolation?_eq_some.mpr (.inr ⟨named, _, before, place, rfl⟩))
  | nowhere defined placed jumps named absent =>
      exact mem_findings_of_target defined placed jumps
        (Definition.targetViolation?_eq_some.mpr ⟨named, absent, rfl⟩)
  | unknown defined placed calls inside missing =>
      exact mem_findings_of_call defined placed calls inside
        (callViolation?_eq_some.mpr (.inl ⟨missing, rfl⟩))
  | arity defined placed calls inside known differs =>
      exact mem_findings_of_call defined placed calls inside
        (callViolation?_eq_some.mpr (.inr ⟨_, known, differs, rfl⟩))

/-- Verification accepts the lawful sources. Of any other source it reports every broken rule once, in the
order of the sites where rules are broken. -/
theorem verification_exact (source : Source) :
    (source.verify = .ok () ↔ source.Lawful) ∧
      ∃ findings : List (Site × Violation),
        (findings.Pairwise fun first second => first.1 < second.1) ∧
        (∀ site violation, (site, violation) ∈ findings ↔ source.Breaks site violation) ∧
        source.verify = if findings = [] then .ok () else .error (findings.map Prod.snd) := by
  constructor
  · rw [← violations_eq_nil, verify_eq]
    split <;> simp_all
  · refine ⟨source.findings, source.ordered_findings, fun site violation =>
      ⟨breaks_of_mem, Breaks.mem_findings⟩, ?_⟩
    simp only [verify_eq, ← source.map_snd_findings, List.map_eq_nil_iff]

/-- Labels come before calls, and an outer call before the calls inside it. -/
example :
    verify ⟨⟨"Main", [.labeled (.named 1) (.quote .result ⟨"Outer", [.call "Inner" []]⟩),
        .labeled (.named 1) (.gotoLabel (.named 2))]⟩, []⟩ =
      .error [.duplicateLabel "Main" (.named 1) 1 0, .undefinedLabel "Main" (.named 2) 1,
        .unknownFunction "Main" "Outer" 0, .unknownFunction "Main" "Inner" 0] := by
  decide +kernel

end Source

end CounterMachine
