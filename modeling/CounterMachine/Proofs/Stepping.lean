import CounterMachine.Proofs.Unfolding
set_option autoImplicit false

/-!
# Steps of a routine

A step depends on the code of a routine, not on how the code is held: the instruction at a position is found
by counting, and a jump leads to the place where its label is attached.
-/

namespace CounterMachine

/-! ## Places of labels -/

theorem getElem?_note_position (positions : Std.ExtTreeMap Label Nat) (instruction : Instruction)
    (position : Nat) {label : Label} (nonempty : label ≠ .empty) :
    (if instruction.label.isEmpty then positions
      else positions.insertIfNew instruction.label position)[label]? =
      positions[label]?.or (if instruction.label = label then some position else none) := by
  cases filled : instruction.label.isEmpty with
  | true =>
      have different : instruction.label ≠ label := by
        rintro rfl
        cases found : instruction.label with
        | empty => exact nonempty found
        | exit | named =>
            rw [found] at filled
            cases filled
      rw [if_pos rfl, if_neg different, Option.or_none]
  | false =>
      rw [if_neg Bool.false_ne_true, Std.ExtTreeMap.getElem?_insertIfNew]
      simp only [Std.LawfulEqCmp.compare_eq_iff_eq]
      by_cases same : instruction.label = label
      · subst same
        simp only [← Std.ExtTreeMap.isSome_getElem?_iff_mem]
        cases known : positions[instruction.label]? with
        | none => simp
        | some place => simp
      · simp [same]

theorem getElem?_foldl_positions (code : List Instruction) (start : Nat)
    (positions : Std.ExtTreeMap Label Nat) {label : Label} (nonempty : label ≠ .empty) :
    ((code.zipIdx start).foldl (fun positions (instruction, position) =>
        if instruction.label.isEmpty then positions
        else positions.insertIfNew instruction.label position) positions)[label]? =
      positions[label]?.or
        ((code.findIdx? fun instruction => instruction.label = label).map (· + start)) := by
  induction code generalizing start positions with
  | nil => simp
  | cons instruction rest ih =>
      rw [List.zipIdx_cons, List.foldl_cons, ih, List.findIdx?_cons,
        getElem?_note_position _ _ _ nonempty, Option.or_assoc]
      congr 1
      by_cases same : instruction.label = label
      · simp [same]
      · have shift : (fun place : Nat => place + start) ∘ (· + 1) = (· + (start + 1)) := by
          funext place
          simp only [Function.comp_apply]
          omega
        simp [same, shift]

theorem Routine.getElem?_labelPositions (routine : Routine) {label : Label}
    (nonempty : label ≠ .empty) :
    routine.labelPositions[label]? =
      routine.instructions.findIdx? fun instruction => instruction.label = label := by
  rw [labelPositions, getElem?_foldl_positions _ _ _ nonempty]
  simp

/-- Where the flow after an instruction leads in some code, nothing if it leaves the code by `EXIT`. -/
inductive Leads (code : List Instruction) (position : Nat) : Flow → Option Nat → Prop where
  | next : Leads code position .next (some (position + 1))
  | empty : Leads code position (.goto .empty) (some (position + 1))
  | exit : Leads code position (.goto .exit) none
  | named {place : Nat} {index : UInt32} {instruction : Instruction}
      (found : code[place]? = some instruction) (label : instruction.label = .named index) :
      Leads code position (.goto (.named index)) (some place)

theorem Leads.unique {code : List Instruction} (unique : (attached code).Nodup) {position : Nat}
    {flow : Flow} {left right : Option Nat} (first : Leads code position flow left)
    (second : Leads code position flow right) : left = right := by
  cases first with
  | next | empty | exit =>
      cases second
      rfl
  | named found label =>
      cases second with
      | named otherFound otherLabel =>
          have same := place_unique unique found otherFound (label.trans otherLabel.symm)
            (by rw [label]; rfl)
          rw [same]

theorem Leads.of_attached {code : List Instruction} {position : Nat} {target : Label}
    (attached : target.isNamed = true → target ∈ attached code) :
    ∃ next, Leads code position (.goto target) next := by
  cases target with
  | empty => exact ⟨_, .empty⟩
  | exit => exact ⟨_, .exit⟩
  | named index =>
      obtain ⟨_, instruction, member, label⟩ := mem_attached.mp (attached rfl)
      obtain ⟨place, found⟩ := List.mem_iff_getElem?.mp member
      exact ⟨_, .named found label⟩

/-! ## Instructions by position -/

namespace Routine

variable {routine : Routine}

theorem getElem?_nodes (present : ∀ id ∈ routine.sequence, ∃ node, routine.forest.get? id = some node)
    (position : Nat) : routine.nodes[position]? = routine.node? position := by
  have same := congrArg (·[position]?) (map_some_filterMap present)
  simp only [List.getElem?_map] at same
  rw [node?, nodes]
  cases here : routine.sequence[position]? with
  | none =>
      rw [here] at same
      simpa using same
  | some id =>
      obtain ⟨node, found⟩ := present id (List.mem_of_getElem? here)
      rw [here] at same
      simpa [found] using same

theorem instruction?_eq_getElem?
    (present : ∀ id ∈ routine.sequence, ∃ node, routine.forest.get? id = some node) (position : Nat) :
    routine.instruction? position = routine.instructions[position]? := by
  simp only [instruction?, instructions, List.getElem?_map, getElem?_nodes present]

end Routine

namespace Routine.Runnable

variable {registry : Registry} {routine : Routine}

theorem instruction?_eq (runnable : routine.Runnable registry) (position : Nat) :
    routine.instruction? position = routine.instructions[position]? :=
  instruction?_eq_getElem? runnable.present position

theorem sameCode (runnable : routine.Runnable registry) {next : Routine}
    (same : routine.SameCode next) : next.Runnable registry where
  present := by
    rw [same.sequence, same.forest]
    exact runnable.present
  resolved := by
    rw [same.instructions]
    exact runnable.resolved
  calls := by
    rw [same.instructions]
    exact runnable.calls
  positions := by rw [same.labels, same.labelPositions, runnable.positions]

theorem resolve?_named (runnable : routine.Runnable registry) (index : UInt32) :
    routine.state.resolve? (.named index) =
      routine.instructions.findIdx? fun instruction => instruction.label = .named index := by
  rw [State.resolve?, runnable.positions]
  exact routine.getElem?_labelPositions nofun

theorem destination_iff (runnable : routine.Runnable registry) {position : Nat} {flow : Flow}
    {next : Option Nat} :
    routine.state.destination position flow = .ok next ↔
      Leads routine.instructions position flow next := by
  constructor
  · intro led
    cases flow with
    | next =>
        cases led
        exact .next
    | goto target =>
        cases target with
        | empty =>
            cases led
            exact .empty
        | exit =>
            cases led
            exact .exit
        | named index =>
            simp only [State.destination, runnable.resolve?_named] at led
            cases place : routine.instructions.findIdx? fun instruction =>
                instruction.label = .named index with
            | none => simp [place] at led
            | some found =>
                simp only [place] at led
                cases led
                obtain ⟨inside, label, _⟩ := List.findIdx?_eq_some_iff_getElem.mp place
                exact .named (List.getElem?_eq_getElem inside) (by simpa using label)
  · intro leads
    cases leads with
    | next | empty | exit => rfl
    | @named place index instruction found label =>
        simp only [State.destination, runnable.resolve?_named]
        rw [findIdx?_attached runnable.resolved.unique found label rfl]

end Routine.Runnable

/-! ## What a step can do -/

namespace Routine

/-- The effect of an instruction on the values of a routine. -/
def attempt (registry : Registry) (run : Argument.Runner) (routine : Routine)
    (instruction : Instruction) : Outcome Effect :=
  instruction.operation.execute
    (fun call => call.toArgument.evaluate registry run routine.state.values) routine.state.values

/-- The routine after the instruction at its position had an effect that leads somewhere. -/
def moved (routine : Routine) (effect : Effect) (next : Option Nat) : Routine :=
  let state := { routine.state with values := effect.values }.advance routine.state.position
    (next.getD (routine.state.position + 1)) effect.cycles
  { routine with state := if next.isSome then state else state.halt }

/-- The ways in which a step can end. -/
inductive Stepped (registry : Registry) (run : Argument.Runner) (routine : Routine) :
    Routine × Outcome Step → Prop where
  | halted (stopped : routine.state.halted = true) :
      Stepped registry run routine (routine, .done .halted)
  | past (going : routine.state.halted = false)
      (missing : routine.instruction? routine.state.position = none) :
      Stepped registry run routine ({ routine with state := routine.state.halt }, .done .halted)
  | failed {instruction : Instruction} {failure : Failure} (going : routine.state.halted = false)
      (found : routine.instruction? routine.state.position = some instruction)
      (tried : routine.attempt registry run instruction = .failed failure) :
      Stepped registry run routine (routine, .failed failure)
  | unfinished {instruction : Instruction} (going : routine.state.halted = false)
      (found : routine.instruction? routine.state.position = some instruction)
      (tried : routine.attempt registry run instruction = .unfinished) :
      Stepped registry run routine (routine, .unfinished)
  | lost {instruction : Instruction} {effect : Effect} {failure : Failure}
      (going : routine.state.halted = false)
      (found : routine.instruction? routine.state.position = some instruction)
      (tried : routine.attempt registry run instruction = .done effect)
      (led : routine.state.destination routine.state.position effect.flow = .error failure) :
      Stepped registry run routine (routine, .failed failure)
  | executed {instruction : Instruction} {effect : Effect} {next : Option Nat}
      (going : routine.state.halted = false)
      (found : routine.instruction? routine.state.position = some instruction)
      (tried : routine.attempt registry run instruction = .done effect)
      (led : routine.state.destination routine.state.position effect.flow = .ok next) :
      Stepped registry run routine
        (routine.moved effect next, .done (.executed routine.state.position effect.cycles))

theorem stepped (registry : Registry) (run : Argument.Runner) (routine : Routine) :
    Stepped registry run routine (routine.stepWith registry run) := by
  cases stopped : routine.state.halted with
  | true =>
      rw [stepWith, if_pos stopped]
      exact .halted stopped
  | false =>
      rw [stepWith, if_neg (by rw [stopped]; exact Bool.false_ne_true)]
      dsimp only
      cases found : routine.instruction? routine.state.position with
      | none => exact .past stopped found
      | some instruction =>
          dsimp only
          rw [← attempt]
          cases tried : routine.attempt registry run instruction with
          | failed failure => exact .failed stopped found tried
          | unfinished => exact .unfinished stopped found tried
          | done effect =>
              dsimp only
              cases led : routine.state.destination routine.state.position effect.flow with
              | error failure => exact .lost stopped found tried led
              | ok next => exact .executed stopped found tried led

@[simp] theorem moved_values (routine : Routine) (effect : Effect) (next : Option Nat) :
    (routine.moved effect next).state.values = effect.values := by
  cases next <;> rfl

@[simp] theorem moved_halted (routine : Routine) (effect : Effect) (next : Option Nat)
    (going : routine.state.halted = false) :
    (routine.moved effect next).state.halted = next.isNone := by
  cases next with
  | none => rfl
  | some place => exact going

@[simp] theorem moved_cycles (routine : Routine) (effect : Effect) (next : Option Nat) :
    (routine.moved effect next).state.cycles = routine.state.cycles + effect.cycles := by
  cases next <;> rfl

@[simp] theorem moved_steps (routine : Routine) (effect : Effect) (next : Option Nat) :
    (routine.moved effect next).state.history.size = routine.state.history.size + 1 := by
  cases next <;> exact Array.size_push _

theorem moved_history (routine : Routine) (effect : Effect) (next : Option Nat) :
    (routine.moved effect next).state.history = routine.state.history.push {
      step := routine.state.history.size
      position := some routine.state.position
      cycles := routine.state.cycles + effect.cycles
      values := effect.values } := by
  cases next <;> rfl

theorem moved_sameCode (routine : Routine) (effect : Effect) (next : Option Nat) :
    routine.SameCode (routine.moved effect next) := by
  cases next <;> exact ⟨rfl, rfl, rfl, rfl, rfl, rfl, .inl rfl⟩

end Routine

/-! ## Flow of an operation -/

theorem Operation.flow_of_apply {invoke : Call → Outcome Reply} {values : Values}
    {operation : Operation} {effect : Effect} (applied : operation.apply invoke values = .done effect) :
    effect.flow = .next ∨ ∃ target, operation.target? = some target ∧ effect.flow = .goto target := by
  have jumps : ∀ (condition : Bool) (target : Label), Flow.jumpIf condition target = .next ∨
      Flow.jumpIf condition target = .goto target := by
    intro condition target
    cases condition with
    | true => exact .inr rfl
    | false => exact .inl rfl
  cases operation with
  | increase | decrease | neutral | zeroVariable | constantAssignment | assignment =>
      cases applied
      exact .inl rfl
  | gotoLabel target =>
      cases applied
      exact .inr ⟨target, rfl, rfl⟩
  | jumpNotZero subject target | jumpZero subject target | jumpEqualConstant subject constant target
  | jumpEqualVariable subject other target =>
      cases applied
      exact (jumps _ target).imp_right fun taken => ⟨target, rfl, taken⟩
  | quote subject call =>
      simp only [apply, Outcome.map] at applied
      cases replied : invoke call with
      | done reply =>
          rw [replied] at applied
          cases applied
          exact .inl rfl
      | failed | unfinished =>
          rw [replied] at applied
          cases applied
  | jumpEqualFunction subject call target =>
      simp only [apply, Outcome.map] at applied
      cases replied : invoke call with
      | done reply =>
          rw [replied] at applied
          cases applied
          exact (jumps _ target).imp_right fun taken => ⟨target, rfl, taken⟩
      | failed | unfinished =>
          rw [replied] at applied
          cases applied

/-- An operation that writes a variable does not jump, and it writes a variable of its own. -/
theorem Operation.write_of_apply {invoke : Call → Outcome Reply} {values : Values}
    {operation : Operation} {effect : Effect} (applied : operation.apply invoke values = .done effect) :
    effect.values = values ∨ effect.flow = .next ∧
      ∃ subject value, subject ∈ operation.vars ∧ effect.values = values.insert subject value := by
  cases operation with
  | increase subject | decrease subject | zeroVariable subject | constantAssignment subject constant
  | assignment subject source =>
      cases applied
      exact .inr ⟨rfl, subject, _, List.mem_cons_self, rfl⟩
  | jumpNotZero | neutral | gotoLabel | jumpZero | jumpEqualConstant | jumpEqualVariable =>
      cases applied
      exact .inl rfl
  | quote subject call =>
      simp only [apply, Outcome.map] at applied
      cases replied : invoke call with
      | done reply =>
          simp only [replied] at applied
          cases applied
          exact .inr ⟨rfl, subject, reply.value, List.mem_cons_self, rfl⟩
      | failed | unfinished =>
          simp only [replied] at applied
          cases applied
  | jumpEqualFunction subject call target =>
      simp only [apply, Outcome.map] at applied
      cases replied : invoke call with
      | done reply =>
          simp only [replied] at applied
          cases applied
          exact .inl rfl
      | failed | unfinished =>
          simp only [replied] at applied
          cases applied

theorem Operation.execute_done {invoke : Call → Outcome Reply} {values : Values}
    {operation : Operation} {effect : Effect}
    (executed : operation.execute invoke values = .done effect) :
    ∃ applied, operation.apply invoke values = .done applied ∧ effect.flow = applied.flow ∧
      effect.values = applied.values ∧
      effect.cycles = UInt64.ofNat operation.kind.cycles + applied.cycles := by
  rw [execute, Outcome.map] at executed
  cases applied : operation.apply invoke values with
  | done result =>
      rw [applied] at executed
      cases executed
      exact ⟨result, rfl, rfl, rfl, rfl⟩
  | failed | unfinished =>
      rw [applied] at executed
      cases executed

theorem Resolved.leads {code : List Instruction} (resolved : Resolved code) {position : Nat}
    {instruction : Instruction} (member : instruction ∈ code) {flow : Flow}
    (flows : flow = .next ∨
      ∃ target, instruction.operation.target? = some target ∧ flow = .goto target) :
    ∃ next, Leads code position flow next := by
  rcases flows with rfl | ⟨target, jumps, rfl⟩
  · exact ⟨_, .next⟩
  · exact Leads.of_attached (resolved.defined member jumps)

end CounterMachine
