import CounterMachine.Command.Report
import CounterMachine.Proofs.Adequacy
import CounterMachine.Proofs.Safety
set_option autoImplicit false

/-!
# Limited runs

A run with a limit is compared with the complete run. The limit is looked at after a step and not before it, so
the first instruction is executed even if no step is allowed: a limit of 0 acts as a limit of 1. With this bound
a limited run is exact. It never executes more instructions; it reports the complete run if that does not take
more; and otherwise it stops just there, provided that every call on the way comes to an end.
-/

namespace CounterMachine

namespace Routine

variable {registry : Registry} {routine : Routine}

/-! ## Executed instructions -/

/-- A number of steps that all execute an instruction, each with enough fuel for its call. -/
inductive Executes (registry : Registry) : Nat → Routine → Routine → Prop where
  | none {routine : Routine} : Executes registry 0 routine routine
  | step {count fuel position : Nat} {cycles : UInt64} {routine next last : Routine}
      (first : routine.step registry fuel = (next, .done (.executed position cycles)))
      (others : Executes registry count next last) : Executes registry (count + 1) routine last

/-- The call of the next instruction comes to an end, if there is one. -/
def CallEnds (registry : Registry) (routine : Routine) : Prop :=
  ∀ instruction, routine.instruction? routine.state.position = some instruction →
    ∃ answer, instruction.operation.Answered registry routine.state.values.value answer

/-- The complete run of a routine ends after a number of executed instructions. -/
structure Completes (registry : Registry) (routine : Routine) (arguments : List UInt64) (count : Nat)
    (ended : Routine) : Prop where
  executes : ∃ last, Executes registry count (routine.start arguments) last ∧ last.isFinished = true
  run : ∃ fuel, routine.run registry fuel arguments = (ended, .done ended.result)

theorem step_mono {fuel enough : Nat} (more : fuel ≤ enough) {next : Routine} {step : Step}
    (done : routine.step registry fuel = (next, .done step)) :
    routine.step registry enough = (next, .done step) :=
  stepWith_mono (extends_of_le more) done

theorem step_unique {fuel other : Nat} {left right : Routine} {one two : Step}
    (first : routine.step registry fuel = (left, .done one))
    (second : routine.step registry other = (right, .done two)) : left = right := by
  have same := (step_mono (Nat.le_max_left fuel other) first).symm.trans
    (step_mono (Nat.le_max_right fuel other) second)
  exact congrArg Prod.fst same

theorem sameCode_of_step {fuel : Nat} {next : Routine} {outcome : Outcome Step}
    (step : routine.step registry fuel = (next, outcome)) : routine.SameCode next := by
  have same := SameCode.stepWith registry (replyOf (finish registry fuel)) routine
  rw [Routine.step] at step
  rwa [step] at same

theorem Executes.sameCode {count : Nat} {last : Routine} (executes : Executes registry count routine last) :
    routine.SameCode last := by
  induction executes with
  | none => exact .refl _
  | step first _ ih => exact (sameCode_of_step first).trans ih

/-- A run passes through every routine that it reaches earlier. -/
theorem Executes.split {fewer count : Nat} {middle last : Routine}
    (early : Executes registry fewer routine middle) (late : Executes registry count routine last)
    (earlier : fewer ≤ count) : Executes registry (count - fewer) middle last := by
  induction early generalizing count with
  | none => exact late
  | step first _ ih =>
      cases late with
      | none => cases earlier
      | step alsoFirst others =>
          obtain rfl := step_unique first alsoFirst
          rw [Nat.add_sub_add_right]
          exact ih others (Nat.le_of_succ_le_succ earlier)

theorem Executes.unique {count : Nat} {left right : Routine} (first : Executes registry count routine left)
    (second : Executes registry count routine right) : left = right := by
  have rest := first.split second (Nat.le_refl count)
  rw [Nat.sub_self] at rest
  cases rest
  rfl

/-- Basic instructions call nothing. -/
theorem Runnable.callEnds_of_isBasic (runnable : routine.Runnable registry) (basic : routine.isBasic = true) :
    routine.CallEnds registry := by
  intro instruction found
  rw [runnable.instruction?_eq] at found
  have member : instruction ∈ routine.instructions := List.mem_of_getElem? found
  exact ⟨0, Operation.answered_silent (Instruction.call?_of_basic (List.all_eq_true.mp basic _ member))⟩

theorem Executes.isBasic {count : Nat} {last : Routine} (executes : Executes registry count routine last) :
    last.isBasic = routine.isBasic := by
  rw [Routine.isBasic, executes.sameCode.instructions]
  rfl

theorem Executes.snoc {count fuel position : Nat} {cycles : UInt64} {last next : Routine}
    (executes : Executes registry count routine last)
    (final : last.step registry fuel = (next, .done (.executed position cycles))) :
    Executes registry (count + 1) routine next := by
  induction executes with
  | none => exact .step final .none
  | step first _ ih => exact .step first (ih final)

/-! ## What a step can do -/

/-- A routine that was told to stop. -/
def stopped (routine : Routine) : Routine :=
  { routine with state := routine.state.halt }

/-- A step of a runnable routine either finds nothing to execute, or executes an instruction, which is recorded,
or does not have the fuel for a call. -/
inductive Runnable.Stepped (registry : Registry) (fuel : Nat) (routine : Routine) :
    Routine × Outcome Step → Prop where
  | halted (finished : routine.isFinished = true) :
      Stepped registry fuel routine (routine.stopped, .done .halted)
  | executed {next : Routine} {position : Nat} {cycles : UInt64} (going : routine.isFinished = false)
      (recorded : next.state.history.size = routine.state.history.size + 1) :
      Stepped registry fuel routine (next, .done (.executed position cycles))
  | unfinished {instruction : Instruction} (going : routine.isFinished = false)
      (found : routine.instruction? routine.state.position = some instruction)
      (tried : routine.attempt registry (replyOf (finish registry fuel)) instruction = .unfinished) :
      Stepped registry fuel routine (routine, .unfinished)

theorem Runnable.isFinished_iff (runnable : routine.Runnable registry) : routine.isFinished = true ↔
    routine.state.halted = true ∨ routine.instruction? routine.state.position = none := by
  have length : routine.length = routine.instructions.length := by
    have same := congrArg List.length (map_some_filterMap runnable.present)
    simpa [Routine.length, instructions, nodes] using same.symm
  rw [runnable.past_iff, isFinished, length, Bool.or_eq_true, decide_eq_true_eq]

theorem Runnable.stepped (runnable : routine.Runnable registry) (wellFormed : registry.WellFormed) (fuel : Nat) :
    Runnable.Stepped registry fuel routine (routine.step registry fuel) := by
  have safe := runnable.step_ne_failed wellFormed fuel
  have outcome := Routine.stepped registry (replyOf (finish registry fuel)) routine
  have going {instruction : Instruction} (started : routine.state.halted = false)
      (found : routine.instruction? routine.state.position = some instruction) :
      routine.isFinished = false := by
    rw [← Bool.not_eq_true, runnable.isFinished_iff, started, found]
    simp
  simp only [Routine.step] at safe ⊢
  generalize routine.stepWith registry (replyOf (finish registry fuel)) = result at outcome safe ⊢
  cases outcome with
  | halted stopped =>
      have same : routine.stopped = routine := by
        rw [Routine.stopped, State.halt, ← stopped]
      have finished : Stepped registry fuel routine (routine.stopped, .done .halted) :=
        .halted (runnable.isFinished_iff.mpr (.inl stopped))
      rwa [same] at finished
  | past _ missing => exact .halted (runnable.isFinished_iff.mpr (.inr missing))
  | failed | lost => exact absurd rfl (safe _)
  | unfinished started found tried => exact .unfinished (going started found) found tried
  | executed started found => exact .executed (going started found) (moved_steps ..)

theorem Runnable.step_of_isFinished (runnable : routine.Runnable registry) (wellFormed : registry.WellFormed)
    (finished : routine.isFinished = true) (fuel : Nat) :
    routine.step registry fuel = (routine.stopped, .done .halted) := by
  have outcome := runnable.stepped wellFormed fuel
  generalize routine.step registry fuel = result at outcome ⊢
  cases outcome with
  | halted => rfl
  | executed going | unfinished going =>
      rw [finished] at going
      cases going

theorem Runnable.step_of_callEnds (runnable : routine.Runnable registry) (wellFormed : registry.WellFormed)
    (going : routine.isFinished = false) (ends : routine.CallEnds registry) :
    ∃ fuel next position cycles, routine.step registry fuel = (next, .done (.executed position cycles)) := by
  have started : ¬routine.isFinished = true := by simp [going]
  rw [runnable.isFinished_iff, not_or] at started
  obtain ⟨instruction, found⟩ := Option.ne_none_iff_exists'.mp started.2
  obtain ⟨answer, answered⟩ := ends instruction found
  obtain ⟨fuel, effect, tried, _⟩ := attempt_of_answered answered
  refine ⟨fuel, ?_⟩
  have outcome := runnable.stepped wellFormed fuel
  generalize routine.step registry fuel = result at outcome ⊢
  cases outcome with
  | halted finished =>
      rw [finished] at going
      cases going
  | executed => exact ⟨_, _, _, rfl⟩
  | unfinished _ present attempted =>
      rw [found] at present
      cases present
      rw [tried] at attempted
      cases attempted

/-! ## Limited runs -/

section Limited

variable {start : Routine} {bound limit : Nat}

theorem Executes.history {count : Nat} (executes : Executes registry count start routine)
    (runnable : start.Runnable registry) (wellFormed : registry.WellFormed) :
    routine.state.history.size = start.state.history.size + count := by
  induction executes with
  | none => rfl
  | @step count fuel position cycles start next last first others ih =>
      have outcome := runnable.stepped wellFormed fuel
      rw [first] at outcome
      cases outcome with
      | executed _ recorded =>
          rw [ih (runnable.sameCode (sameCode_of_step first)), recorded]
          omega

/-- Nothing is executed after the end of a run. -/
theorem Executes.eq_of_isFinished {count further : Nat} {last other : Routine}
    (executes : Executes registry count start last) (alsoExecutes : Executes registry further start other)
    (runnable : start.Runnable registry) (wellFormed : registry.WellFormed)
    (finished : last.isFinished = true) (later : count ≤ further) : other = last := by
  have rest := executes.split alsoExecutes later
  generalize further - count = remaining at rest
  cases rest with
  | none => rfl
  | step first =>
      rw [(runnable.sameCode executes.sameCode).step_of_isFinished wellFormed finished] at first
      cases first

/-- Before the end of a run there is a next instruction to execute. -/
theorem Executes.next {fewer count : Nat} {middle last : Routine}
    (early : Executes registry fewer start middle) (executes : Executes registry count start last)
    (runnable : start.Runnable registry) (wellFormed : registry.WellFormed)
    (finished : last.isFinished = true) (going : middle.isFinished = false) :
    ∃ fuel next position cycles, middle.step registry fuel = (next, .done (.executed position cycles)) := by
  rcases Nat.lt_or_ge fewer count with earlier | later
  · obtain ⟨rest, positive⟩ : ∃ rest, count - fewer = rest + 1 := ⟨count - fewer - 1, by omega⟩
    have remaining := early.split executes (Nat.le_of_lt earlier)
    rw [positive] at remaining
    cases remaining with
    | step first => exact ⟨_, _, _, _, first⟩
  · rw [executes.eq_of_isFinished early runnable wellFormed finished later, finished] at going
    cases going

/-- The results of a run from a start that may execute a number of instructions. -/
inductive Limited (registry : Registry) (bound : Nat) (start : Routine) :
    Routine × Nat × Outcome Pause → Prop where
  | halted {count : Nat} {last : Routine} (executes : Executes registry count start last)
      (finished : last.isFinished = true) (within : count ≤ bound) :
      Limited registry bound start (last.stopped, count, .done .halted)
  | limit {last : Routine} (executes : Executes registry bound start last) (going : last.isFinished = false) :
      Limited registry bound start (last, bound, .done .limit)
  | unfinished {count : Nat} {last : Routine} (executes : Executes registry count start last)
      (within : count ≤ bound) : Limited registry bound start (last, count, .unfinished)

/-- What holds before every step of a run with a limit. -/
structure InLimit (registry : Registry) (limit : Nat) (start : Routine) (executed : Nat) (routine : Routine) :
    Prop where
  executes : Executes registry executed start routine
  within : executed ≤ max limit 1
  below : routine.isFinished = false → executed < max limit 1

theorem inLimit_start (registry : Registry) (limit : Nat) (start : Routine) :
    InLimit registry limit start 0 start where
  executes := .none
  within := Nat.zero_le _
  below _ := by omega

/-- The limit is reached after a step, or the run goes on within the limit. -/
theorem InLimit.step {executed fuel position : Nat} {cycles : UInt64} {next : Routine}
    (inLimit : InLimit registry limit start executed routine) (going : routine.isFinished = false)
    (step : routine.step registry fuel = (next, .done (.executed position cycles))) :
    if (some limit).any (· ≤ executed + 1) && !next.isFinished then
      Executes registry (max limit 1) start next ∧ executed + 1 = max limit 1 ∧ next.isFinished = false
    else InLimit registry limit start (executed + 1) next := by
  have further := inLimit.executes.snoc step
  have below := inLimit.below going
  simp only [Option.any_some]
  split
  · next reached =>
      simp only [Bool.and_eq_true, decide_eq_true_eq, Bool.not_eq_true'] at reached
      have exact : executed + 1 = max limit 1 := by omega
      exact ⟨exact ▸ further, exact, reached.2⟩
  · next free =>
      refine ⟨further, below, fun unfinished => ?_⟩
      simp only [unfinished, Bool.not_false, Bool.and_true, decide_eq_true_eq] at free
      omega

/-- A run with a limit executes no more instructions than the limit allows, but at least one is allowed. -/
theorem InLimit.driveUntil {executed : Nat} (inLimit : InLimit registry limit start executed routine)
    (runnable : start.Runnable registry) (wellFormed : registry.WellFormed) (fuel : Nat) :
    Limited registry (max limit 1) start (routine.driveUntil registry (some limit) fuel executed) := by
  induction fuel generalizing executed routine with
  | zero => exact .unfinished inLimit.executes inLimit.within
  | succ fuel ih =>
      have outcome := (runnable.sameCode inLimit.executes.sameCode).stepped wellFormed fuel
      rw [Routine.driveUntil]
      cases step : routine.step registry fuel with
      | mk next result =>
          rw [step] at outcome
          cases outcome with
          | halted finished => exact .halted inLimit.executes finished inLimit.within
          | unfinished => exact .unfinished inLimit.executes inLimit.within
          | executed going =>
              have after := inLimit.step going step
              dsimp only
              split
              · next reached =>
                  rw [if_pos reached] at after
                  obtain ⟨executes, exact, unfinished⟩ := after
                  rw [exact]
                  exact .limit executes unfinished
              · next free =>
                  rw [if_neg free] at after
                  exact ih after

/-- If every instruction on the way can be executed, a run with a limit comes to its end. -/
theorem InLimit.exists_fuel {executed : Nat} (inLimit : InLimit registry limit start executed routine)
    (runnable : start.Runnable registry) (wellFormed : registry.WellFormed)
    (goesOn : ∀ count last, count < max limit 1 → Executes registry count start last →
      last.isFinished = false →
      ∃ fuel next position cycles, last.step registry fuel = (next, .done (.executed position cycles))) :
    ∃ least, ∀ fuel, least ≤ fuel →
      (routine.driveUntil registry (some limit) fuel executed).2.2 ≠ .unfinished := by
  have halts {executed : Nat} {routine : Routine} (inLimit : InLimit registry limit start executed routine)
      (finished : routine.isFinished = true) : ∃ least, ∀ fuel, least ≤ fuel →
        (routine.driveUntil registry (some limit) fuel executed).2.2 ≠ .unfinished := by
    refine ⟨1, fun fuel enough => ?_⟩
    obtain ⟨fuel, rfl⟩ := Nat.exists_eq_add_of_le' enough
    have here := runnable.sameCode inLimit.executes.sameCode
    rw [Routine.driveUntil, here.step_of_isFinished wellFormed finished]
    nofun
  -- The number of instructions that may still be executed decreases.
  generalize left : max limit 1 - executed = rest
  induction rest generalizing executed routine with
  | zero =>
      refine halts inLimit ?_
      by_contra going
      have below := inLimit.below (Bool.eq_false_of_not_eq_true going)
      omega
  | succ rest ih =>
      cases finished : routine.isFinished with
      | true => exact halts inLimit finished
      | false =>
          obtain ⟨enough, next, position, cycles, step⟩ :=
            goesOn executed routine (inLimit.below finished) inLimit.executes finished
          have after := inLimit.step finished step
          split at after
          · next reached =>
              refine ⟨enough + 1, fun fuel more => ?_⟩
              obtain ⟨fuel, rfl⟩ : ∃ rest, fuel = rest + 1 := ⟨fuel - 1, by omega⟩
              rw [Routine.driveUntil, step_mono (by omega) step]
              simp only [if_pos reached]
              nofun
          · next free =>
              obtain ⟨least, enoughLater⟩ := ih after (by omega)
              refine ⟨max enough least + 1, fun fuel more => ?_⟩
              obtain ⟨fuel, rfl⟩ : ∃ rest, fuel = rest + 1 := ⟨fuel - 1, by omega⟩
              rw [Routine.driveUntil, step_mono (by omega) step]
              simp only [if_neg free]
              exact enoughLater fuel (by omega)

/-! ## Complete runs -/

theorem Executes.finish {count : Nat} {last : Routine} (executes : Executes registry count routine last)
    (runnable : routine.Runnable registry) (wellFormed : registry.WellFormed)
    (finished : last.isFinished = true) :
    ∃ fuel, routine.finish registry fuel = (last.stopped, .done ()) := by
  induction executes with
  | none => exact ⟨1, finish_succ_of_halted (runnable.step_of_isFinished wellFormed finished 0)⟩
  | @step count enough position cycles routine next last first _ ih =>
      obtain ⟨fuel, ran⟩ := ih (runnable.sameCode (sameCode_of_step first)) finished
      refine ⟨max enough fuel + 1, ?_⟩
      rw [finish_succ_of_executed (step_mono (Nat.le_max_left enough fuel) first)]
      exact finish_mono ran (Nat.le_max_right enough fuel)

theorem completes_iff (runnable : routine.Runnable registry) (wellFormed : registry.WellFormed)
    {arguments : List UInt64} {count : Nat} {ended : Routine} :
    routine.Completes registry arguments count ended ↔
      ∃ last, Executes registry count (routine.start arguments) last ∧ last.isFinished = true ∧
        ended = last.stopped := by
  have started := runnable.sameCode (SameCode.start routine arguments)
  constructor
  · rintro ⟨⟨last, executes, finished⟩, fuel, ran⟩
    obtain ⟨enough, ends⟩ := executes.finish started wellFormed finished
    exact ⟨last, executes, finished, finish_unique (run_done_iff.mp ran).1 ends⟩
  · rintro ⟨last, executes, finished, rfl⟩
    obtain ⟨fuel, ends⟩ := executes.finish started wellFormed finished
    exact ⟨⟨last, executes, finished⟩, fuel, run_done_iff.mpr ⟨ends, rfl⟩⟩

/-- A run that may execute as many instructions as the complete run needs is the complete run. -/
theorem Limited.of_isFinished {main last : Routine} {count steps : Nat} {outcome : Outcome Pause}
    (limited : Limited registry bound start (main, steps, outcome)) (ended : outcome ≠ .unfinished)
    (runnable : start.Runnable registry) (wellFormed : registry.WellFormed)
    (executes : Executes registry count start last) (finished : last.isFinished = true)
    (within : count ≤ bound) : main = last.stopped ∧ outcome = .done .halted := by
  cases limited with
  | unfinished => exact absurd rfl ended
  | limit alsoExecutes going =>
      rw [executes.eq_of_isFinished alsoExecutes runnable wellFormed finished within, finished] at going
      cases going
  | halted alsoExecutes alsoFinished =>
      refine ⟨?_, rfl⟩
      rcases Nat.le_total count steps with later | earlier
      · rw [executes.eq_of_isFinished alsoExecutes runnable wellFormed finished later]
      · rw [alsoExecutes.eq_of_isFinished executes runnable wellFormed alsoFinished earlier]

end Limited

end Routine

/-! ## Reports -/

namespace Command

/-- The printed history of a run. -/
def traceText (trace : Bool) (main : Routine) : String :=
  if trace then unlines (main.state.history.toList.map snapshotLine) else ""

/-- The report of a complete run. -/
def completeReport (trace : Bool) (ended : Routine) : Report where
  stdout := traceText trace ended ++ "y = " ++ ended.result.toNat.repr ++ "\ncycles = " ++
    ended.state.cycles.toNat.repr ++ "\n"

/-- The report of a run that was stopped after a number of executed instructions. -/
def limitReport (trace : Bool) (last : Routine) (steps : Nat) : Report where
  code := 3
  stdout := traceText trace last
  stderr := "error: step limit of " ++ steps.repr ++ " reached before termination\n"

section Runs

variable {program : Program} {arguments : List UInt64} {trace : Bool} {limit : Nat}
  (runnable : program.main.Runnable program.functions) (wellFormed : program.functions.WellFormed)

include runnable wellFormed

variable (arguments limit) in
theorem limited_driveUntil (fuel : Nat) :
    Routine.Limited program.functions (max limit 1) (program.main.start arguments)
      ((program.main.start arguments).driveUntil program.functions (some limit) fuel 0) :=
  (Routine.inLimit_start _ limit _).driveUntil (runnable.sameCode (.start _ arguments)) wellFormed fuel

theorem executed_le_limit (fuel : Nat) :
    let (main, steps, _) := (program.main.start arguments).driveUntil program.functions (some limit) fuel 0
    steps ≤ max limit 1 ∧ main.state.history.size = steps + 1 := by
  have started := runnable.sameCode (.start _ arguments)
  have recorded {count : Nat} {last : Routine}
      (executes : Routine.Executes program.functions count (program.main.start arguments) last) :
      last.state.history.size = count + 1 := by
    rw [executes.history started wellFormed, Nat.add_comm]
    rfl
  have limited := limited_driveUntil arguments limit runnable wellFormed fuel
  generalize (program.main.start arguments).driveUntil program.functions (some limit) fuel 0 = result at limited ⊢
  cases limited with
  | @halted count last executes finished within =>
      have recordedLast : last.state.history.size = count + 1 := recorded executes
      exact ⟨within, recordedLast⟩
  | limit executes => exact ⟨Nat.le_refl _, recorded executes⟩
  | unfinished executes within => exact ⟨within, recorded executes⟩

theorem completes_of_runReport {fuel : Nat}
    (succeeds : (runReport fuel program arguments trace (some limit)).code = 0) :
    ∃ count ended, count ≤ max limit 1 ∧ program.main.Completes program.functions arguments count ended ∧
      runReport fuel program arguments trace (some limit) = completeReport trace ended := by
  have limited := limited_driveUntil arguments limit runnable wellFormed fuel
  rw [runReport] at succeeds ⊢
  generalize (program.main.start arguments).driveUntil program.functions (some limit) fuel 0 = result
    at limited succeeds ⊢
  cases limited with
  | halted executes finished within =>
      exact ⟨_, _, within, (Routine.completes_iff runnable wellFormed).mpr ⟨_, executes, finished, rfl⟩, rfl⟩
  | limit | unfinished => cases succeeds

theorem runReport_of_completes {count : Nat} {ended : Routine} (within : count ≤ max limit 1)
    (completes : program.main.Completes program.functions arguments count ended) :
    ∃ least, ∀ fuel, least ≤ fuel →
      runReport fuel program arguments trace (some limit) = completeReport trace ended := by
  obtain ⟨last, executes, finished, rfl⟩ := (Routine.completes_iff runnable wellFormed).mp completes
  have started := runnable.sameCode (.start _ arguments)
  obtain ⟨least, ends⟩ := (Routine.inLimit_start _ limit _).exists_fuel started wellFormed
    fun _ _ _ reached going => reached.next executes started wellFormed finished going
  refine ⟨least, fun fuel enough => ?_⟩
  have limited := limited_driveUntil arguments limit runnable wellFormed fuel
  have ended := ends fuel enough
  rw [runReport]
  generalize (program.main.start arguments).driveUntil program.functions (some limit) fuel 0 = result
    at limited ended ⊢
  obtain ⟨main, steps, outcome⟩ := result
  obtain ⟨rfl, rfl⟩ := limited.of_isFinished ended started wellFormed executes finished within
  rfl

/-- A complete run within the limit is not stopped by it. -/
theorem longer_of_driveUntil {fuel : Nat}
    (stops : ((program.main.start arguments).driveUntil program.functions (some limit) fuel 0).2.2 =
      .done .limit) :
    ¬∃ count ended, count ≤ max limit 1 ∧
      program.main.Completes program.functions arguments count ended := by
  rintro ⟨count, ended, within, completes⟩
  obtain ⟨last, executes, finished, -⟩ := (Routine.completes_iff runnable wellFormed).mp completes
  have limited := limited_driveUntil arguments limit runnable wellFormed fuel
  generalize (program.main.start arguments).driveUntil program.functions (some limit) fuel 0 = result
    at limited stops
  obtain ⟨main, steps, outcome⟩ := result
  obtain rfl : outcome = .done .limit := stops
  have halted := limited.of_isFinished nofun (runnable.sameCode (.start _ arguments)) wellFormed executes
    finished within
  cases halted.2

theorem runReport_of_limit
    (longer : ¬∃ count ended, count ≤ max limit 1 ∧
      program.main.Completes program.functions arguments count ended)
    (callsEnd : ∀ count last, count < max limit 1 →
      Routine.Executes program.functions count (program.main.start arguments) last →
      last.CallEnds program.functions) :
    ∃ last, Routine.Executes program.functions (max limit 1) (program.main.start arguments) last ∧
      ∃ least, ∀ fuel, least ≤ fuel →
        runReport fuel program arguments trace (some limit) = limitReport trace last (max limit 1) := by
  have started := runnable.sameCode (.start _ arguments)
  obtain ⟨least, ends⟩ := (Routine.inLimit_start _ limit _).exists_fuel started wellFormed
    fun count last below executes going =>
      (started.sameCode executes.sameCode).step_of_callEnds wellFormed going (callsEnd count last below executes)
  have stops (fuel : Nat) (enough : least ≤ fuel) :
      ∃ last, Routine.Executes program.functions (max limit 1) (program.main.start arguments) last ∧
        runReport fuel program arguments trace (some limit) = limitReport trace last (max limit 1) := by
    have limited := limited_driveUntil arguments limit runnable wellFormed fuel
    have ended := ends fuel enough
    rw [runReport]
    generalize (program.main.start arguments).driveUntil program.functions (some limit) fuel 0 = result
      at limited ended ⊢
    cases limited with
    | unfinished => exact absurd rfl ended
    | limit executes => exact ⟨_, executes, rfl⟩
    | @halted count last executes finished within =>
        exact absurd ⟨count, last.stopped, within,
          (Routine.completes_iff runnable wellFormed).mpr ⟨last, executes, finished, rfl⟩⟩ longer
  obtain ⟨last, executes, _⟩ := stops least (Nat.le_refl least)
  refine ⟨last, executes, least, fun fuel enough => ?_⟩
  obtain ⟨other, alsoExecutes, report⟩ := stops fuel enough
  rw [report, alsoExecutes.unique executes]

end Runs

/-! ## Answers -/

/-- With enough fuel, a command line is answered by a report, and no file changes. -/
def Settles (system : FileSystem) (words : List String) (report : Report) : Prop :=
  ∃ least, ∀ fuel, least ≤ fuel → answer fuel system words = (report, system)

theorem accepted_of_loadSource {input : String} {contents : Except FileFault ByteArray} {source : Source}
    (loaded : loadSource input contents = .ok source) : source.violations = [] := by
  unfold loadSource at loaded
  dsimp only at loaded
  split at loaded
  · cases loaded
  · split at loaded
    · cases loaded
    · split at loaded
      · next none =>
          cases loaded
          exact none
      · cases loaded

/-- How many rounds a request asks for. -/
def Depth.count (program : Program) : Depth → Nat
  | rounds count => count
  | full => program.degree

/-- The names that the requested expansion of a source needs are left. -/
def Expandable (source : Source) (depth : Option Depth) : Prop :=
  ∀ program chosen, Program.load source = .ok program → depth = some chosen →
    program.main.demand program.functions (chosen.count program) ≤ program.main.supply.free

/-- The program of an accepted source can be run, unless the names for its expansion are not left. -/
theorem buildProgram_safe {source : Source} (accepted : source.violations = []) (depth : Option Depth) :
    (¬Expandable source depth ∧
      buildProgram source depth = .error (.failure 3 "expansion error: no name is left\n")) ∨
    ∃ program, buildProgram source depth = .ok program ∧ program.main.Runnable program.functions ∧
      program.functions.WellFormed := by
  obtain ⟨program, loaded, main, wellFormed, resolved, fit⟩ := Program.load_wellFormed accepted
  have frontier := Frontier.ofDefinition program.functions source.program
  rw [← main] at frontier
  have runnable := frontier.runnable wellFormed resolved fit
  have expansion (rounds : Nat) :
      (¬program.main.demand program.functions rounds ≤ program.main.supply.free ∧
        program.expand rounds = .error .namesExhausted) ∨
      ∃ next, program.expand rounds = .ok next ∧ next.main.Runnable next.functions ∧
        next.functions.WellFormed := by
    obtain ⟨succeeds, fails⟩ := Routine.expandSelected_safe wellFormed runnable.calls rounds fun _ => true
    rw [Program.expand, Routine.expand]
    by_cases room : program.main.demand program.functions rounds ≤ program.main.supply.free
    · obtain ⟨next, expanded⟩ := succeeds room
      obtain ⟨branches, draft, grown⟩ := frontier.expandSelected expanded
      rw [expanded]
      exact .inr ⟨_, rfl, grown.runnable wellFormed resolved fit, wellFormed⟩
    · rw [fails room]
      exact .inl ⟨room, rfl⟩
  cases depth with
  | none =>
      simp only [buildProgram, loaded]
      exact .inr ⟨program, rfl, runnable, wellFormed⟩
  | some depth =>
      have built : buildProgram source (some depth) = (program.expand (depth.count program)).mapError
          fun failure => .failure 3 ("expansion error: " ++ failure.message ++ "\n") := by
        simp only [buildProgram, loaded]
        cases depth with
        | rounds count => cases expanded : program.expand count <;> simp [expanded, Depth.count, Except.mapError]
        | full => cases expanded : program.expand program.degree <;> simp [expanded, Depth.count, Except.mapError]
      rw [built]
      rcases expansion (depth.count program) with ⟨short, failed⟩ | ⟨next, expanded, safe⟩
      · rw [failed]
        exact .inl ⟨fun expandable => short (expandable program depth loaded rfl), rfl⟩
      · rw [expanded]
        exact .inr ⟨next, rfl, safe⟩

theorem runnable_of_buildProgram {source : Source} (accepted : source.violations = []) {depth : Option Depth}
    {program : Program} (built : buildProgram source depth = .ok program) :
    program.main.Runnable program.functions ∧ program.functions.WellFormed := by
  rcases buildProgram_safe accepted depth with ⟨_, failed⟩ | ⟨other, same, safe⟩
  · cases built.symm.trans failed
  · obtain rfl := Except.ok.inj (same.symm.trans built)
    exact safe

theorem answer_run {system : FileSystem} {words : List String} {input : String} {arguments : List UInt64}
    {depth : Option Depth} {trace : Bool} {limit : Option Nat} {source : Source}
    (asked : Request.ofWords words = .ok (.run input arguments depth trace limit))
    (loaded : loadSource input (system.read input) = .ok source) (fuel : Nat) :
    answer fuel system words =
      match buildProgram source depth with
      | .error report => (report, system)
      | .ok program => (runReport fuel program arguments trace limit, system) := by
  rw [answer, asked]
  simp only [Request.input?, Request.react, loaded, bind, Except.bind]
  cases buildProgram source depth <;> rfl

/-- A limit of 0 acts as a limit of 1, because it is looked at after a step; otherwise a limit is exact, unless
the names for the expansion that is asked for are not left. No run executes more instructions. A command
succeeds, and prints the result and the cycles of the complete run, if and only if the complete run does not
execute more. If it does, and if every call on the way ends, the command reports the limit after exactly as many
executed instructions. -/
theorem limited_run_exact {system : FileSystem} {words : List String} {input : String}
    {arguments : List UInt64} {depth : Option Depth} {trace : Bool} {limit : Nat} {source : Source}
    (asked : Request.ofWords words = .ok (.run input arguments depth trace (some limit)))
    (loaded : loadSource input (system.read input) = .ok source) :
    (¬Expandable source depth ∧
      buildProgram source depth = .error (.failure 3 "expansion error: no name is left\n") ∧
      Settles system words (.failure 3 "expansion error: no name is left\n")) ∨
    ∃ program, buildProgram source depth = .ok program ∧
      (∀ fuel,
        let (main, steps, _) :=
          (program.main.start arguments).driveUntil program.functions (some limit) fuel 0
        steps ≤ max limit 1 ∧ main.state.history.size = steps + 1) ∧
      (∀ report, Settles system words report ∧ report.code = 0 ↔
        ∃ count ended, count ≤ max limit 1 ∧
          program.main.Completes program.functions arguments count ended ∧
          report = completeReport trace ended) ∧
      ((¬∃ count ended, count ≤ max limit 1 ∧
          program.main.Completes program.functions arguments count ended) →
        (∀ count last, count < max limit 1 →
          Routine.Executes program.functions count (program.main.start arguments) last →
          last.CallEnds program.functions) →
        ∃ last, Routine.Executes program.functions (max limit 1) (program.main.start arguments) last ∧
          Settles system words (limitReport trace last (max limit 1))) := by
  rcases buildProgram_safe (accepted_of_loadSource loaded) depth with ⟨short, failed⟩ |
    ⟨program, built, runnable, wellFormed⟩
  · refine .inl ⟨short, failed, 0, fun fuel _ => ?_⟩
    rw [answer_run asked loaded, failed]
  have answered (fuel : Nat) :
      answer fuel system words = (runReport fuel program arguments trace (some limit), system) := by
    rw [answer_run asked loaded, built]
  refine .inr ⟨program, built, executed_le_limit runnable wellFormed, fun report => ⟨?_, ?_⟩,
    fun longer callsEnd => ?_⟩
  · rintro ⟨⟨least, settles⟩, succeeds⟩
    obtain rfl : runReport least program arguments trace (some limit) = report :=
      congrArg Prod.fst ((answered least).symm.trans (settles least (Nat.le_refl least)))
    exact completes_of_runReport runnable wellFormed succeeds
  · rintro ⟨count, ended, within, completes, rfl⟩
    obtain ⟨least, reports⟩ := runReport_of_completes runnable wellFormed within completes
    exact ⟨⟨least, fun fuel enough => by rw [answered, reports fuel enough]⟩, rfl⟩
  · obtain ⟨last, executes, least, reports⟩ := runReport_of_limit runnable wellFormed longer callsEnd
    exact ⟨last, executes, least, fun fuel enough => by rw [answered, reports fuel enough]⟩

/-- A call takes one step of the main program, and a jump to `EXIT` ends it. -/
def callAndLeave : Source :=
  ⟨⟨"Main", [⟨.empty, .quote .result ⟨"Next", [.var (.input 1)]⟩⟩, ⟨.empty, .gotoLabel .exit⟩,
      ⟨.empty, .increase .result⟩]⟩,
    [⟨"Next", [⟨.empty, .assignment .result (.input 1)⟩, ⟨.empty, .increase .result⟩]⟩]⟩

def callAndLeaveFile : FileSystem :=
  ⟨["home"], [(["home", "call.sl"], callAndLeave.listing.toUTF8)]⟩

theorem callAndLeave_limited_run_exact :
    Request.ofWords ["run", "call.sl", "7", "--max-steps", "2"] =
      .ok (.run "call.sl" [7] none false (some 2)) ∧
    Request.ofWords ["run", "call.sl", "7", "--degree", "max", "--max-steps", "3"] =
      .ok (.run "call.sl" [7] (some .full) false (some 3)) ∧
    loadSource "call.sl" (callAndLeaveFile.read "call.sl") = .ok callAndLeave ∧
    Settles callAndLeaveFile ["run", "call.sl", "7", "--max-steps", "2"]
      { stdout := "y = 8\ncycles = 11\n" } ∧
    Settles callAndLeaveFile ["run", "call.sl", "7", "--degree", "max", "--max-steps", "3"]
      { code := 3, stderr := "error: step limit of 3 reached before termination\n" } := by
  have asked : Request.ofWords ["run", "call.sl", "7", "--max-steps", "2"] =
      .ok (.run "call.sl" [7] none false (some 2)) := by decide +kernel
  have askedFull : Request.ofWords ["run", "call.sl", "7", "--degree", "max", "--max-steps", "3"] =
      .ok (.run "call.sl" [7] (some .full) false (some 3)) := by decide +kernel
  have loaded : loadSource "call.sl" (callAndLeaveFile.read "call.sl") = .ok callAndLeave := by decide +kernel
  refine ⟨asked, askedFull, loaded, ?_, ?_⟩
  · -- The main program calls once and leaves, just within the limit.
    have short : (answer 4 callAndLeaveFile ["run", "call.sl", "7", "--max-steps", "2"]).1 =
        { stdout := "y = 8\ncycles = 11\n" } := by decide +kernel
    have builds : (buildProgram callAndLeave none).toOption.isSome = true := by decide +kernel
    rcases limited_run_exact asked loaded with ⟨_, failed, _⟩ | ⟨program, built, _, complete, _⟩
    · rw [failed] at builds
      cases builds
    · obtain ⟨runnable, wellFormed⟩ := runnable_of_buildProgram (accepted_of_loadSource loaded) built
      rw [answer_run asked loaded, built] at short
      obtain ⟨count, ended, within, completes, report⟩ :=
        completes_of_runReport runnable wellFormed (congrArg Report.code short)
      exact ((complete _).mpr ⟨count, ended, within, completes, short.symm.trans report⟩).1
  · -- The expanded program is longer, and basic: its calls end because there are none.
    have stops : ((buildProgram callAndLeave (some .full)).toOption.map fun program =>
          (program.main.isBasic,
            ((program.main.start [7]).driveUntil program.functions (some 3) 4 0).2.2)) =
        some (true, .done .limit) := by decide +kernel
    rcases limited_run_exact askedFull loaded with ⟨_, failed, _⟩ | ⟨program, built, _, _, limited⟩
    · rw [failed] at stops
      cases stops
    · obtain ⟨runnable, wellFormed⟩ := runnable_of_buildProgram (accepted_of_loadSource loaded) built
      rw [built] at stops
      obtain ⟨basic, stops⟩ := Prod.mk.inj (Option.some.inj stops)
      have started := runnable.sameCode (.start _ [7])
      obtain ⟨last, _, settles⟩ := limited (longer_of_driveUntil runnable wellFormed stops)
        fun count last _ executes => (started.sameCode executes.sameCode).callEnds_of_isBasic
          (executes.isBasic.trans basic)
      exact settles

/-- One instruction and no more. -/
def increaseFile : FileSystem :=
  ⟨["home"], [(["home", "one.sl"], "INCREASE y".toUTF8)]⟩

/-- With a limit of 0 the command succeeds, although there is an instruction to execute and it is executed. -/
theorem zero_limit_executes_instruction :
    (answer 2 increaseFile ["run", "one.sl", "--max-steps", "0"]).1 = { stdout := "y = 1\ncycles = 1\n" } ∧
    ((buildProgram ⟨⟨"Main", [⟨.empty, .increase .result⟩]⟩, []⟩ none).toOption.map fun program =>
        ((program.main.start []).isFinished,
          ((program.main.start []).driveUntil program.functions (some 0) 2 0).2.1)) =
      some (false, 1) := by
  constructor
  · decide +kernel
  · decide +kernel

end Command

end CounterMachine
