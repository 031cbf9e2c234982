import CounterMachine.Proofs.Fuel
import Mathlib.Logic.Function.Basic
set_option autoImplicit false

/-!
# Meaning of code

The meaning of code is given on stores: functions from variables to values. An operation acts on a store, a
move takes the run from one position to the next, and code halts when moves lead past its end or out of it.
The history, the cycles and the fuel of a run are left out.
-/

namespace CounterMachine

/-- The values of all variables. -/
abbrev Store := Variable → UInt64

namespace Argument

mutual

/-- The value of an argument in a store. -/
def Answers (registry : Registry) (store : Store) : Argument → UInt64 → Prop
  | .var name => fun value => value = store name
  | .call function arguments => fun value => ∃ callee inputs, registry[function]? = some callee ∧
      callee.inputs.length = arguments.length ∧ AnswersAll registry store arguments inputs ∧
      callee.Yields registry inputs value

/-- The values of some arguments in a store. -/
def AnswersAll (registry : Registry) (store : Store) : List Argument → List UInt64 → Prop
  | [] => fun values => values = []
  | argument :: rest => fun values => ∃ value others, values = value :: others ∧
      argument.Answers registry store value ∧ AnswersAll registry store rest others

end

variable {registry : Registry} {store other : Store}

mutual

theorem Answers.unique : (argument : Argument) → {left right : UInt64} →
    argument.Answers registry store left → argument.Answers registry store right → left = right
  | .var name, left, right, first, second => by
      rw [Answers] at first second
      exact first.trans second.symm
  | .call function arguments, left, right, first, second => by
      rw [Answers] at first second
      obtain ⟨callee, inputs, found, _, evaluated, yields⟩ := first
      obtain ⟨callee, inputs, alsoFound, _, alsoEvaluated, alsoYields⟩ := second
      rw [found] at alsoFound
      cases alsoFound
      rw [AnswersAll.unique arguments evaluated alsoEvaluated] at yields
      exact yields.unique alsoYields

theorem AnswersAll.unique : (arguments : List Argument) → {left right : List UInt64} →
    AnswersAll registry store arguments left → AnswersAll registry store arguments right →
    left = right
  | [], left, right, first, second => by
      rw [AnswersAll] at first second
      exact first.trans second.symm
  | argument :: rest, left, right, first, second => by
      rw [AnswersAll] at first second
      obtain ⟨value, others, rfl, answer, evaluated⟩ := first
      obtain ⟨again, more, rfl, alsoAnswer, alsoEvaluated⟩ := second
      rw [Answers.unique argument answer alsoAnswer, AnswersAll.unique rest evaluated alsoEvaluated]

end

mutual

/-- The value of an argument depends on its variables only. Renamed variables with the same values give the
same answer. -/
theorem answers_mapVars (rename : Variable → Variable) : (argument : Argument) → {value : UInt64} →
    (∀ name ∈ argument.vars, other (rename name) = store name) →
    ((argument.mapVars rename).Answers registry other value ↔ argument.Answers registry store value)
  | .var name, value, same => by
      rw [mapVars, Answers, Answers, same name (by rw [vars]; exact List.mem_singleton_self name)]
  | .call function arguments, value, same => by
      rw [vars] at same
      rw [mapVars, Answers, Answers]
      simp only [answersAll_mapVars rename arguments same, length_mapVarsAll]

theorem answersAll_mapVars (rename : Variable → Variable) : (arguments : List Argument) →
    {values : List UInt64} → (∀ name ∈ varsAll arguments, other (rename name) = store name) →
    (AnswersAll registry other (mapVarsAll rename arguments) values ↔
      AnswersAll registry store arguments values)
  | [], values, _ => by rw [mapVarsAll, AnswersAll, AnswersAll]
  | argument :: rest, values, same => by
      rw [varsAll] at same
      rw [mapVarsAll, AnswersAll, AnswersAll]
      simp only [answers_mapVars rename argument fun name member =>
          same name (List.mem_append_left _ member),
        answersAll_mapVars rename rest fun name member => same name (List.mem_append_right _ member)]

end

theorem answersAll_congr {arguments : List Argument} {values : List UInt64}
    (same : ∀ name ∈ varsAll arguments, other name = store name) :
    AnswersAll registry other arguments values ↔ AnswersAll registry store arguments values := by
  have renamed := @answersAll_mapVars registry store other id arguments values same
  rwa [mapVarsAll_id] at renamed

theorem answersAll_update {arguments : List Argument} {values : List UInt64} {name : Variable}
    (absent : name ∉ varsAll arguments) (value : UInt64) :
    AnswersAll registry (Function.update store name value) arguments values ↔
      AnswersAll registry store arguments values := by
  refine answersAll_congr fun other occurs => Function.update_of_ne ?_ _ _
  intro same
  exact absent (same ▸ occurs)

theorem AnswersAll.length {arguments : List Argument} {values : List UInt64}
    (answers : AnswersAll registry store arguments values) : values.length = arguments.length := by
  induction arguments generalizing values with
  | nil =>
      rw [AnswersAll] at answers
      rw [answers]
      rfl
  | cons argument rest ih =>
      rw [AnswersAll] at answers
      obtain ⟨value, others, rfl, _, answered⟩ := answers
      rw [List.length_cons, List.length_cons, ih answered]

end Argument

/-! ## Operations on stores -/

namespace Operation

/-- The flow and the store after an operation whose call, if any, was answered. -/
def effect (answer : UInt64) (store : Store) : Operation → Flow × Store
  | increase subject => (.next, Function.update store subject (increased (store subject)))
  | decrease subject => (.next, Function.update store subject (decreased (store subject)))
  | jumpNotZero subject target => (.jumpIf (store subject ≠ 0) target, store)
  | neutral _ => (.next, store)
  | zeroVariable subject => (.next, Function.update store subject 0)
  | gotoLabel target => (.goto target, store)
  | constantAssignment subject constant => (.next, Function.update store subject constant)
  | assignment subject source => (.next, Function.update store subject (store source))
  | jumpZero subject target => (.jumpIf (store subject = 0) target, store)
  | jumpEqualConstant subject constant target => (.jumpIf (store subject = constant) target, store)
  | jumpEqualVariable subject other target => (.jumpIf (store subject = store other) target, store)
  | quote subject _ => (.next, Function.update store subject answer)
  | jumpEqualFunction subject _ target => (.jumpIf (store subject = answer) target, store)

/-- The call of an operation, if any, has an answer. -/
def Answered (registry : Registry) (store : Store) (operation : Operation) (answer : UInt64) : Prop :=
  ∀ call, operation.call? = some call → call.toArgument.Answers registry store answer

theorem answered_silent {registry : Registry} {store : Store} {operation : Operation}
    (silent : operation.call? = none) : operation.Answered registry store 0 := by
  intro call calls
  rw [silent] at calls
  cases calls

theorem effect_unique {registry : Registry} {store : Store} {operation : Operation}
    {left right : UInt64} (first : operation.Answered registry store left)
    (second : operation.Answered registry store right) :
    operation.effect left store = operation.effect right store := by
  cases operation with
  | quote subject call | jumpEqualFunction subject call target =>
      rw [Argument.Answers.unique call.toArgument (first call rfl) (second call rfl)]
  | _ => rfl

theorem flow_effect (answer : UInt64) (store : Store) (operation : Operation) :
    (operation.effect answer store).1 = .next ∨
      ∃ target, operation.target? = some target ∧
        (operation.effect answer store).1 = .goto target := by
  have jumps : ∀ (condition : Bool) (target : Label), Flow.jumpIf condition target = .next ∨
      Flow.jumpIf condition target = .goto target := by
    intro condition target
    cases condition with
    | true => exact .inr rfl
    | false => exact .inl rfl
  cases operation with
  | jumpNotZero | jumpZero | jumpEqualConstant | jumpEqualVariable | jumpEqualFunction =>
      exact (jumps _ _).imp_right fun taken => ⟨_, rfl, taken⟩
  | gotoLabel target => exact .inr ⟨target, rfl, rfl⟩
  | _ => exact .inl rfl

end Operation

/-! ## Moves -/

/-- One instruction leads from a position and a store to the next. -/
inductive Moves (registry : Registry) (code : List Instruction) (position : Nat) (store : Store)
    (next : Option Nat) (after : Store) : Prop where
  | intro {instruction : Instruction} {answer : UInt64} {flow : Flow}
      (found : code[position]? = some instruction)
      (answered : instruction.operation.Answered registry store answer)
      (acts : instruction.operation.effect answer store = (flow, after))
      (leads : Leads code position flow next) : Moves registry code position store next after

/-- A number of moves; a run that has left the code moves no more. -/
inductive Goes (registry : Registry) (code : List Instruction) :
    Nat → Option Nat → Store → Option Nat → Store → Prop where
  | stay {place : Option Nat} {store : Store} : Goes registry code 0 place store place store
  | move {count position : Nat} {middle final : Option Nat} {store between last : Store}
      (first : Moves registry code position store middle between)
      (others : Goes registry code count middle between final last) :
      Goes registry code (count + 1) (some position) store final last

/-- A run ends outside the code, or past its last instruction. -/
def Halts (registry : Registry) (code : List Instruction) (count : Nat) (place : Option Nat)
    (store last : Store) : Prop :=
  ∃ final, Goes registry code count place store final last ∧
    ∀ position, final = some position → code.length ≤ position

section Runs

variable {registry : Registry} {code : List Instruction}

theorem Moves.unique (distinct : (attached code).Nodup) {position : Nat}
    {store left right : Store} {first second : Option Nat}
    (one : Moves registry code position store first left)
    (two : Moves registry code position store second right) : first = second ∧ left = right := by
  cases one with
  | intro found answered acts leads =>
      cases two with
      | intro alsoFound alsoAnswered alsoActs alsoLeads =>
          rw [found] at alsoFound
          cases alsoFound
          rw [Operation.effect_unique answered alsoAnswered, alsoActs] at acts
          cases acts
          exact ⟨leads.unique distinct alsoLeads, rfl⟩

theorem Goes.trans {first second : Nat} {start middle final : Option Nat} {store between last : Store}
    (one : Goes registry code first start store middle between)
    (two : Goes registry code second middle between final last) :
    Goes registry code (first + second) start store final last := by
  induction one with
  | stay =>
      rw [Nat.zero_add]
      exact two
  | move moves _ ih =>
      rw [Nat.succ_add]
      exact .move moves (ih two)

theorem Goes.within {count : Nat} {start final : Option Nat} {store last : Store}
    (goes : Goes registry code count start store final last)
    (inside : start.getD code.length ≤ code.length) : final.getD code.length ≤ code.length := by
  induction goes with
  | stay => exact inside
  | move moves _ ih =>
      apply ih
      obtain ⟨found, _, _, leads⟩ := moves
      have within := (List.getElem?_eq_some_iff.mp found).1
      cases leads with
      | next | empty => exact within
      | exit => exact Nat.le_refl _
      | named there _ => exact Nat.le_of_lt (List.getElem?_eq_some_iff.mp there).1

/-- A run that halts passes through every place that its moves lead to. -/
theorem Halts.split (distinct : (attached code).Nodup) {count whole : Nat} {start middle : Option Nat}
    {store between last : Store} (goes : Goes registry code count start store middle between)
    (halts : Halts registry code whole start store last) :
    ∃ rest, whole = count + rest ∧ Halts registry code rest middle between last := by
  induction goes generalizing whole with
  | stay => exact ⟨whole, (Nat.zero_add _).symm, halts⟩
  | move moves _ ih =>
      obtain ⟨final, path, outside⟩ := halts
      cases path with
      | stay =>
          have past := outside _ rfl
          obtain ⟨found, _, _, _⟩ := moves
          rw [List.getElem?_eq_none past] at found
          cases found
      | move other others =>
          obtain ⟨rfl, rfl⟩ := moves.unique distinct other
          obtain ⟨rest, rfl, remaining⟩ := ih ⟨final, others, outside⟩
          exact ⟨rest, by omega, remaining⟩

theorem Halts.answered {count position : Nat} {store last : Store}
    (halts : Halts registry code count (some position) store last) {instruction : Instruction}
    (found : code[position]? = some instruction) :
    ∃ answer, instruction.operation.Answered registry store answer := by
  obtain ⟨final, goes, outside⟩ := halts
  cases goes with
  | stay =>
      rw [List.getElem?_eq_none (outside _ rfl)] at found
      cases found
  | move moves _ =>
      obtain ⟨present, answered, _, _⟩ := moves
      rw [found] at present
      cases present
      exact ⟨_, answered⟩

theorem Halts.unique (distinct : (attached code).Nodup) {first second : Nat} {start : Option Nat}
    {store left right : Store} (one : Halts registry code first start store left)
    (two : Halts registry code second start store right) : left = right := by
  obtain ⟨final, path, outside⟩ := one
  obtain ⟨rest, _, last, goes, _⟩ := two.split distinct path
  cases goes with
  | stay => rfl
  | move moves _ =>
      obtain ⟨found, _, _, _⟩ := moves
      rw [List.getElem?_eq_none (outside _ rfl)] at found
      cases found

end Runs

end CounterMachine
