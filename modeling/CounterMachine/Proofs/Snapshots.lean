import CounterMachine.Proofs.Courses
import Mathlib.Algebra.GroupWithZero.Nat
set_option autoImplicit false

/-!
# Histories of runs

The history of a run has a snapshot of its start and one of every executed step. A chronicle tells how such a
history comes about: each snapshot is the last one after the effect of the instruction where the run had come
to. What is said about all snapshots is read off a chronicle, record by record.
-/

namespace CounterMachine

/-! ## Chronicles -/

/-- The position and the cycles that a step reports if it has executed an instruction. -/
def Outcome.report? : Outcome Step → Option (Nat × UInt64)
  | .done (.executed position cycles) => some (position, cycles)
  | _ => none

/-- Where a run goes on after the instruction at a position: at the next one, or at the first one with the
label of the jump. It goes on nowhere after a jump to `EXIT`. -/
def Flow.place? (code : List Instruction) (position : Nat) : Flow → Option Nat
  | .next | .goto .empty => some (position + 1)
  | .goto .exit => none
  | .goto (.named index) => code.findIdx? fun instruction => instruction.label = .named index

/-- An instruction has an effect on some values if its calls get enough fuel. -/
def Instruction.Effects (registry : Registry) (instruction : Instruction) (values : Values)
    (effect : Effect) : Prop :=
  ∃ fuel, instruction.operation.execute (fun call => call.toArgument.evaluate registry
    (Routine.replyOf (Routine.finish registry fuel)) values) values = .done effect

/-- The reports of the steps of a run, its records, and the position where it goes on. -/
inductive Chronicle (registry : Registry) (code : List Instruction) (initial : Values) :
    List (Nat × UInt64) → List Snapshot → Option Nat → Prop where
  | start : Chronicle registry code initial []
      [{ step := 0, position := none, cycles := 0, values := initial }] (some 0)
  | executed {reports : List (Nat × UInt64)} {records : List Snapshot} {last : Snapshot} {position : Nat}
      {instruction : Instruction} {effect : Effect}
      (before : Chronicle registry code initial reports records (some position))
      (latest : records.getLast? = some last) (found : code[position]? = some instruction)
      (effects : instruction.Effects registry last.values effect) :
      Chronicle registry code initial (reports ++ [(position, effect.cycles)])
        (records ++ [{
          step := records.length
          position := some position
          cycles := last.cycles + effect.cycles
          values := effect.values }])
        (effect.flow.place? code position)

/-- The positions of the reported steps, then the one where the run goes on. -/
def itinerary (reports : List (Nat × UInt64)) (next : Option Nat) : List Nat :=
  reports.map Prod.fst ++ next.toList

namespace Chronicle

variable {registry : Registry} {code : List Instruction} {initial : Values}
  {reports : List (Nat × UInt64)} {records : List Snapshot} {next : Option Nat}

theorem length (chronicle : Chronicle registry code initial reports records next) :
    records.length = reports.length + 1 := by
  induction chronicle with
  | start => rfl
  | executed _ _ _ _ ih => simp only [List.length_append, ih, List.length_singleton]

theorem first (chronicle : Chronicle registry code initial reports records next) :
    records[0]? = some { step := 0, position := none, cycles := 0, values := initial } := by
  induction chronicle with
  | start => rfl
  | executed before _ _ _ ih =>
      rw [List.getElem?_append_left (by rw [before.length]; omega)]
      exact ih

/-- A step goes to the position that its run had come to. -/
theorem itinerary_concat (reports : List (Nat × UInt64)) (position : Nat) (cycles : UInt64)
    (next : Option Nat) : itinerary (reports ++ [(position, cycles)]) next =
      itinerary reports (some position) ++ next.toList := by
  simp only [itinerary, List.map_append, List.map_cons, List.map_nil, Option.toList_some]

theorem length_itinerary (reports : List (Nat × UInt64)) (position : Nat) :
    (itinerary reports (some position)).length = reports.length + 1 := by
  simp only [itinerary, List.length_append, List.length_map, Option.toList_some, List.length_singleton]

theorem getElem?_itinerary {index : Nat} {report : Nat × UInt64} (reported : reports[index]? = some report)
    (next : Option Nat) : (itinerary reports next)[index]? = some report.1 := by
  have inside := (List.getElem?_eq_some_iff.mp reported).1
  rw [itinerary, List.getElem?_append_left (by rwa [List.length_map]), List.getElem?_map, reported]
  rfl

theorem first_position (chronicle : Chronicle registry code initial reports records next) :
    (itinerary reports next)[0]? = some 0 := by
  induction chronicle with
  | start => rfl
  | executed _ _ _ _ ih =>
      rw [itinerary_concat, List.getElem?_append_left (by rw [length_itinerary]; omega)]
      exact ih

/-- Every report is about the instruction at its position, which leads from the record before to the record
after, and to the position of the next report. -/
theorem follows (chronicle : Chronicle registry code initial reports records next) {index position : Nat}
    {cycles : UInt64} (reported : reports[index]? = some (position, cycles)) :
    ∃ before instruction effect, records[index]? = some before ∧ code[position]? = some instruction ∧
      instruction.Effects registry before.values effect ∧ effect.cycles = cycles ∧
      records[index + 1]? = some {
        step := index + 1
        position := some position
        cycles := before.cycles + cycles
        values := effect.values } ∧
      (itinerary reports next)[index + 1]? = effect.flow.place? code position := by
  induction chronicle generalizing index position cycles with
  | start => cases reported
  | @executed reports records last current instruction effect before latest found effects ih =>
      have length := before.length
      rw [itinerary_concat]
      by_cases earlier : index < reports.length
      · rw [List.getElem?_append_left earlier] at reported
        obtain ⟨previous, instruction, effect, recorded, present, had, spent, after, leads⟩ := ih reported
        rw [List.getElem?_append_left (by omega), List.getElem?_append_left (by omega),
          List.getElem?_append_left (by rw [length_itinerary]; omega)]
        exact ⟨previous, instruction, effect, recorded, present, had, spent, after, leads⟩
      · have newest : index = reports.length := by
          have inside := (List.getElem?_eq_some_iff.mp reported).1
          simp only [List.length_append, List.length_singleton] at inside
          omega
        subst newest
        simp only [List.getElem?_concat_length, Option.some.injEq, Prod.mk.injEq] at reported
        obtain ⟨rfl, rfl⟩ := reported
        have recorded : records[reports.length]? = some last := by
          simpa [List.getLast?_eq_getElem?, length] using latest
        refine ⟨last, instruction, effect, ?_, found, effects, rfl, ?_, ?_⟩
        · rw [List.getElem?_append_left (by omega), recorded]
        · rw [← length, List.getElem?_concat_length]
        · rw [List.getElem?_append_right (by rw [length_itinerary]), length_itinerary, Nat.sub_self]
          cases effect.flow.place? code current <;> rfl

/-- A property of all records, each with the reports up to it, holds if it holds at the start and every
effect hands it on. -/
theorem all (chronicle : Chronicle registry code initial reports records next)
    {motive : List (Nat × UInt64) → Snapshot → Prop}
    (atStart : motive [] { step := 0, position := none, cycles := 0, values := initial })
    (handedOn : ∀ earlier last position instruction effect, motive earlier last →
      code[position]? = some instruction → instruction.Effects registry last.values effect →
      motive (earlier ++ [(position, effect.cycles)]) {
        step := earlier.length + 1
        position := some position
        cycles := last.cycles + effect.cycles
        values := effect.values })
    {index : Nat} {snapshot : Snapshot} (recorded : records[index]? = some snapshot) :
    motive (reports.take index) snapshot := by
  induction index generalizing snapshot with
  | zero =>
      cases chronicle.first.symm.trans recorded
      exact atStart
  | succ index ih =>
      have inside := (List.getElem?_eq_some_iff.mp recorded).1
      rw [chronicle.length, Nat.add_lt_add_iff_right] at inside
      have reported := List.getElem?_eq_getElem inside
      generalize reports[index] = report at reported
      obtain ⟨position, cycles⟩ := report
      obtain ⟨last, instruction, effect, before, found, effects, rfl, after, _⟩ :=
        chronicle.follows reported
      cases after.symm.trans recorded
      have handed := handedOn _ _ _ _ _ (ih before) found effects
      rw [List.length_take_of_le (Nat.le_of_lt inside)] at handed
      rw [List.take_add_one, reported]
      exact handed

/-- Every record is numbered, and has the sum of the cycles that were reported up to it. -/
theorem counted (chronicle : Chronicle registry code initial reports records next) {index : Nat}
    {snapshot : Snapshot} (recorded : records[index]? = some snapshot) :
    snapshot.step = index ∧
      snapshot.cycles.toNat = ((reports.take index).map (·.2.toNat)).sum % UInt64.size := by
  have inside := (List.getElem?_eq_some_iff.mp recorded).1
  rw [chronicle.length] at inside
  have counts : snapshot.step = (reports.take index).length ∧
      snapshot.cycles.toNat = ((reports.take index).map (·.2.toNat)).sum % UInt64.size := by
    refine chronicle.all (motive := fun earlier snapshot => snapshot.step = earlier.length ∧
      snapshot.cycles.toNat = (earlier.map (·.2.toNat)).sum % UInt64.size) ⟨rfl, rfl⟩ ?_ recorded
    intro earlier last position instruction effect counts _ _
    simp only [List.length_append, List.length_singleton, List.map_append, List.map_cons, List.map_nil,
      List.sum_append_nat, List.sum_singleton, UInt64.toNat_add, counts.2, true_and]
    simp only [UInt64.size, Nat.mod_add_mod]
  rwa [List.length_take_of_le (Nat.le_of_lt_succ inside)] at counts

/-- An effect writes no other variables than those of its instruction. -/
theorem mem_values (chronicle : Chronicle registry code initial reports records next)
    (closed : ∀ instruction ∈ code, ∀ name ∈ instruction.vars, name ∈ initial) {index : Nat}
    {snapshot : Snapshot} (recorded : records[index]? = some snapshot) (name : Variable) :
    name ∈ snapshot.values ↔ name ∈ initial := by
  refine chronicle.all (motive := fun _ snapshot => name ∈ snapshot.values ↔ name ∈ initial) Iff.rfl ?_
    recorded
  intro earlier last position instruction effect kept found effects
  obtain ⟨fuel, executed⟩ := effects
  obtain ⟨applied, done, rfl⟩ := Outcome.map_done executed
  rcases Operation.write_of_apply done with unchanged | ⟨_, subject, value, own, written⟩
  · simp only [unchanged, kept]
  · have known := closed instruction (List.mem_of_getElem? found) subject own
    simp only [written, Std.ExtTreeMap.mem_insert, Std.LawfulEqCmp.compare_eq_iff_eq, kept]
    constructor
    · rintro (rfl | present)
      · exact known
      · exact present
    · exact .inr

end Chronicle

/-! ## The history of a course -/

namespace Routine

variable {registry : Registry} {definition : Definition} {routine : Routine}

/-- The history of a routine of some code is a chronicle of the reported steps, and its last record is the
current state. -/
structure Recorded (registry : Registry) (code : List Instruction) (initial : Values)
    (reports : List (Nat × UInt64)) (routine : Routine) : Prop where
  unchanged : routine.instructions = code
  chronicle : ∃ next, Chronicle registry code initial reports routine.state.history.toList next ∧
    (routine.state.halted = false → next = some routine.state.position)
  latest : ∃ last, routine.state.history.toList.getLast? = some last ∧
    last.values = routine.state.values ∧ last.cycles = routine.state.cycles

theorem recorded_start (registry : Registry) (routine : Routine) (arguments : List UInt64) :
    (routine.start arguments).Recorded registry routine.instructions
      (State.initialValues routine.varsInUse routine.inputs arguments) [] where
  unchanged := rfl
  chronicle := ⟨some 0, .start, fun _ => rfl⟩
  latest := ⟨_, rfl, rfl, rfl⟩

theorem InLine.place? (inLine : routine.InLine definition) {position : Nat} {flow : Flow}
    {next : Option Nat} (led : routine.state.destination position flow = .ok next) :
    flow.place? routine.instructions position = next := by
  rcases flow with _ | (_ | _ | index)
  · cases led
    rfl
  · cases led
    rfl
  · cases led
    rfl
  · have found := routine.getElem?_labelPositions (show Label.named index ≠ .empty from nofun)
    simp only [State.destination, State.resolve?, inLine.labels, found] at led
    simp only [Flow.place?]
    split at led
    · next place present =>
        cases led
        exact present
    · cases led

section Recorded

variable {code : List Instruction} {initial : Values} {reports : List (Nat × UInt64)}

theorem Recorded.moved (recorded : routine.Recorded registry code initial reports)
    (consistent : routine.Consistent definition) (inLine : routine.InLine definition) {fuel : Nat}
    {instruction : Instruction} {effect : Effect} {next : Option Nat} (going : routine.state.halted = false)
    (found : routine.instruction? routine.state.position = some instruction)
    (tried : routine.attempt registry (replyOf (finish registry fuel)) instruction = .done effect)
    (led : routine.state.destination routine.state.position effect.flow = .ok next) :
    (routine.moved effect next).Recorded registry code initial
      (reports ++ [(routine.state.position, effect.cycles)]) := by
  obtain ⟨place, chronicle, here⟩ := recorded.chronicle
  obtain ⟨last, latest, values, cycles⟩ := recorded.latest
  cases here going
  have effects : instruction.Effects registry last.values effect := by
    rw [values]
    exact ⟨fuel, tried⟩
  have leads := inLine.place? led
  rw [consistent.instruction?_eq, recorded.unchanged] at found
  rw [recorded.unchanged] at leads
  have further := chronicle.executed latest found effects
  rw [leads, cycles, Array.length_toList] at further
  constructor
  · exact (moved_sameCode routine effect next).instructions.trans recorded.unchanged
  · refine ⟨next, ?_, ?_⟩
    · rw [moved_history, Array.toList_push]
      exact further
    · intro goesOn
      rw [moved_halted routine effect next going] at goesOn
      cases next with
      | none => cases goesOn
      | some place => rfl
  · rw [moved_history, Array.toList_push, List.getLast?_concat]
    exact ⟨_, rfl, (moved_values ..).symm, (moved_cycles ..).symm⟩

/-- A step adds its report, if it has one, to the reports and to the history. -/
theorem Recorded.step (recorded : routine.Recorded registry code initial reports)
    (consistent : routine.Consistent definition) (inLine : routine.InLine definition) (fuel : Nat) :
    (routine.step registry fuel).1.Recorded registry code initial
      (reports ++ (routine.step registry fuel).2.report?.toList) := by
  have outcome := stepped registry (replyOf (finish registry fuel)) routine
  simp only [Routine.step]
  generalize routine.stepWith registry (replyOf (finish registry fuel)) = result at outcome ⊢
  cases outcome with
  | halted | failed | unfinished | lost =>
      simp only [Outcome.report?, Option.toList_none, List.append_nil]
      exact recorded
  | past =>
      simp only [Outcome.report?, Option.toList_none, List.append_nil]
      obtain ⟨place, chronicle, _⟩ := recorded.chronicle
      exact ⟨recorded.unchanged, ⟨place, chronicle, nofun⟩, recorded.latest⟩
  | executed going found tried led => exact recorded.moved consistent inLine going found tried led

theorem Recorded.course (recorded : routine.Recorded registry code initial reports)
    (consistent : routine.Consistent definition) (inLine : routine.InLine definition) (fuels : List Nat) :
    (routine.course registry fuels).1.Recorded registry code initial
      (reports ++ (routine.course registry fuels).2.filterMap Outcome.report?) := by
  induction fuels generalizing routine reports with
  | nil => simpa using recorded
  | cons fuel rest ih =>
      have later := ih (recorded.step consistent inLine fuel) (consistent.act registry (.step fuel))
        (inLine.act registry (.step fuel))
      rw [List.append_assoc] at later
      simp only [course_cons, List.filterMap_cons]
      cases reported : (routine.step registry fuel).2.report? with
      | none | some report =>
          rw [reported] at later
          exact later

end Recorded

/-- A step that executes nothing leaves the history, the values and the cycles as they are. -/
theorem step_unreported (routine : Routine) (fuel : Nat)
    (silent : (routine.step registry fuel).2.report? = none) :
    (routine.step registry fuel).1.state = { routine.state with
      halted := (routine.step registry fuel).1.state.halted } := by
  have outcome := stepped registry (replyOf (finish registry fuel)) routine
  simp only [Routine.step] at silent ⊢
  generalize routine.stepWith registry (replyOf (finish registry fuel)) = result at outcome silent ⊢
  cases outcome with
  | halted | past | failed | unfinished | lost => rfl
  | executed => cases silent

/-- The seeded values are those of the variables of the definition and of the current code. -/
theorem mem_initialValues (consistent : routine.Consistent definition) (inLine : routine.InLine definition)
    (arguments : List UInt64) (name : Variable) :
    name ∈ State.initialValues routine.varsInUse routine.inputs arguments ↔
      name ∈ definition.vars ∨ ∃ instruction ∈ routine.instructions, name ∈ instruction.vars := by
  rw [← inLine.mem_varsInUse]
  simp only [State.initialValues, Std.ExtTreeMap.mem_insertMany_list, Std.ExtTreeMap.mem_ofList,
    List.map_map, List.contains_iff_mem, List.mem_map, Function.comp_apply, Std.ExtTreeSet.mem_toList,
    exists_eq_right, or_iff_left_iff_imp]
  rintro ⟨⟨input, argument⟩, paired, rfl⟩
  have declared : input ∈ definition.inputs := consistent.inputs ▸ (List.of_mem_zip paired).1
  simp only [Definition.inputs, List.mem_filter, Std.ExtTreeSet.mem_toList] at declared
  exact inLine.mem_varsInUse.mpr (.inl declared.1)

/-- The history of a run is exact. After a start and any steps there is a snapshot of the start and one of
each step that has executed an instruction. They are numbered, have the sums of the reported cycles, and all
have the variables of the definition and of the current code. A step is at the position that it reports, has
the effect of the instruction there, and is followed by the step where this effect leads. The last snapshot
is the current state, and a step that executes nothing adds nothing. -/
theorem history_exact (becomes : definition.Becomes (fun _ => True) routine) (registry : Registry)
    (arguments : List UInt64) (fuels : List Nat) :
    let last := ((routine.start arguments).course registry fuels).1
    let reports := ((routine.start arguments).course registry fuels).2.filterMap Outcome.report?
    let history := last.state.history
    history.size = reports.length + 1 ∧
    history[0]? = some {
      step := 0
      position := none
      cycles := 0
      values := State.initialValues routine.varsInUse definition.inputs arguments } ∧
    (∀ index snapshot, history[index]? = some snapshot → snapshot.step = index ∧
      snapshot.cycles.toNat = ((reports.take index).map (·.2.toNat)).sum % UInt64.size ∧
      ∀ name, name ∈ snapshot.values ↔
        name ∈ definition.vars ∨ ∃ instruction ∈ routine.instructions, name ∈ instruction.vars) ∧
    (∀ position cycles, reports[0]? = some (position, cycles) → position = 0) ∧
    (∀ index position cycles, reports[index]? = some (position, cycles) →
      ∃ before after instruction effect, history[index]? = some before ∧
        history[index + 1]? = some after ∧ after.position = some position ∧
        routine.instructions[position]? = some instruction ∧
        instruction.Effects registry before.values effect ∧ effect.cycles = cycles ∧
        after.values = effect.values ∧
        ∀ place spent, reports[index + 1]? = some (place, spent) →
          effect.flow.place? routine.instructions position = some place) ∧
    (∃ snapshot, history.back? = some snapshot ∧ snapshot.values = last.state.values ∧
      snapshot.cycles = last.state.cycles) ∧
    ∀ fuel, (last.step registry fuel).2.report? = none →
      (last.step registry fuel).1.state =
        { last.state with halted := (last.step registry fuel).1.state.halted } := by
  intro last reports history
  have consistent := becomes.consistent
  have inLine := becomes.inLine
  have recorded : last.Recorded registry routine.instructions _ reports :=
    (recorded_start registry routine arguments).course (consistent.act registry (.start arguments))
      (inLine.act registry (.start arguments)) fuels
  obtain ⟨next, chronicle, _⟩ := recorded.chronicle
  obtain ⟨snapshot, latest, current⟩ := recorded.latest
  have seeded := mem_initialValues consistent inLine arguments
  have closed : ∀ instruction ∈ routine.instructions, ∀ name ∈ instruction.vars,
      name ∈ State.initialValues routine.varsInUse routine.inputs arguments :=
    fun instruction member name own => (seeded name).mpr (.inr ⟨instruction, member, own⟩)
  refine ⟨chronicle.length, ?_, ?_, ?_, ?_, ⟨snapshot, ?_, current⟩, last.step_unreported⟩
  · rw [← consistent.inputs, ← Array.getElem?_toList]
    exact chronicle.first
  · intro index snapshot here
    rw [← Array.getElem?_toList] at here
    obtain ⟨step, cycles⟩ := chronicle.counted here
    exact ⟨step, cycles, fun name => (chronicle.mem_values closed here name).trans (seeded name)⟩
  · intro position cycles reported
    cases (Chronicle.getElem?_itinerary reported next).symm.trans chronicle.first_position
    rfl
  · intro index position cycles reported
    obtain ⟨before, instruction, effect, earlier, found, effects, spent, after, leads⟩ :=
      chronicle.follows reported
    rw [Array.getElem?_toList] at earlier after
    refine ⟨before, _, instruction, effect, earlier, after, rfl, found, effects, spent, rfl, ?_⟩
    intro place spent reported
    exact leads.symm.trans (Chronicle.getElem?_itinerary reported next)
  · rw [← Array.getLast?_toList]
    exact latest

/-- A loop that counts its input down. -/
def countsDown : Definition :=
  ⟨"Down", [.labeled (.named 1) (.decrease (.input 1)), .plain (.jumpNotZero (.input 1) (.named 1))]⟩

/-- Four of the six steps execute an instruction: the loop is passed twice. -/
theorem countsDown_history_exact :
    let course := ((ofDefinition countsDown).start [2]).course ∅ [0, 0, 0, 0, 0, 0]
    course.2.filterMap Outcome.report? = [(0, 1), (1, 2), (0, 1), (1, 2)] ∧
    course.1.state.history.size = 5 ∧
    ∀ snapshot, course.1.state.history[3]? = some snapshot →
      snapshot.step = 3 ∧ snapshot.cycles.toNat = 4 := by
  intro course
  have becomes : countsDown.Becomes (fun _ => True) (ofDefinition countsDown) := .source
  have reports : course.2.filterMap Outcome.report? = [(0, 1), (1, 2), (0, 1), (1, 2)] := by
    decide +kernel
  obtain ⟨size, _, counted, _⟩ := history_exact becomes ∅ [2] [0, 0, 0, 0, 0, 0]
  rw [reports] at size counted
  refine ⟨reports, size, fun snapshot here => ?_⟩
  obtain ⟨step, cycles, _⟩ := counted 3 snapshot here
  exact ⟨step, cycles⟩

end Routine

end CounterMachine
