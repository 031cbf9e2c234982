import CounterMachine.Proofs.Adequacy
set_option autoImplicit false

/-!
# Routes through blocks

A block that is held by some code at a place is run by following its instructions. At the end of each route the
store is what the operation of the block would have made of it, except for the work variables of the block.
-/

namespace CounterMachine

/-! ## Stores that agree -/

/-- Two stores have the same values outside some hidden variables. -/
def Agree (hidden : List Variable) (left right : Store) : Prop :=
  ∀ name, name ∉ hidden → left name = right name

namespace Agree

variable {hidden : List Variable} {left middle right : Store}

theorem refl (hidden : List Variable) (store : Store) : Agree hidden store store :=
  fun _ _ => rfl

theorem trans (first : Agree hidden left middle) (second : Agree hidden middle right) :
    Agree hidden left right :=
  fun name visible => (first name visible).trans (second name visible)

theorem mono {more : List Variable} (agree : Agree hidden left right) (included : hidden ⊆ more) :
    Agree more left right :=
  fun name visible => agree name fun inHidden => visible (included inHidden)

theorem update (store : Store) {name : Variable} (member : name ∈ hidden) (value : UInt64) :
    Agree hidden store (Function.update store name value) := by
  intro other visible
  refine (Function.update_of_ne ?_ value store).symm
  rintro rfl
  exact visible member

theorem updated (agree : Agree hidden left right) {name : Variable} (member : name ∈ hidden)
    (value : UInt64) : Agree hidden left (Function.update right name value) :=
  agree.trans (.update right member value)

theorem update_both (agree : Agree hidden left right) (name : Variable) (value : UInt64) :
    Agree hidden (Function.update left name value) (Function.update right name value) := by
  intro other visible
  by_cases same : other = name
  · subst same
    rw [Function.update_self, Function.update_self]
  · rw [Function.update_of_ne same, Function.update_of_ne same]
    exact agree other visible

theorem of_update {name : Variable} {value : UInt64} (given : right name = value)
    (others : Agree (name :: hidden) left right) : Agree hidden (Function.update left name value) right := by
  intro other visible
  by_cases same : other = name
  · subst same
    rw [Function.update_self, given]
  · rw [Function.update_of_ne same]
    exact others other (List.not_mem_cons_of_ne_of_not_mem same visible)

end Agree

/-! ## Counters -/

theorem toNat_increased {value : UInt64} (room : value.toNat + 1 < UInt64.size) :
    (increased value).toNat = value.toNat + 1 := by
  have sum : (value + 1).toNat = value.toNat + 1 := by
    rw [UInt64.toNat_add]
    exact Nat.mod_eq_of_lt room
  rw [increased, if_pos room, sum]

theorem increased_ne_zero (value : UInt64) : increased value ≠ 0 := by
  intro zero
  by_cases room : value.toNat + 1 < UInt64.size
  · have sum := toNat_increased room
    rw [zero] at sum
    cases sum
  · rw [increased, if_neg room] at zero
    rw [zero] at room
    exact room (by decide)

theorem toNat_decreased (value : UInt64) : (decreased value).toNat = value.toNat - 1 := by
  rw [decreased]
  split
  · next zero =>
      rw [zero]
      rfl
  · next positive =>
      have above : 1 ≤ value := by
        rw [UInt64.le_iff_toNat_le]
        have nonzero : value.toNat ≠ 0 := fun zero => positive (UInt64.toNat_inj.mp zero)
        simp
        omega
      rw [UInt64.toNat_sub_of_le _ _ above]
      rfl

/-! ## Following a block -/

/-- Moves lead from a place to another. -/
def Reaches (registry : Registry) (code : List Instruction) (place : Option Nat) (store : Store)
    (final : Option Nat) (last : Store) : Prop :=
  ∃ count, Goes registry code count place store final last

/-- At least one move leads from a position to a place. -/
def Advances (registry : Registry) (code : List Instruction) (position : Nat) (store : Store)
    (final : Option Nat) (last : Store) : Prop :=
  ∃ count, Goes registry code (count + 1) (some position) store final last

section Following

variable {registry : Registry} {code : List Instruction}

theorem Reaches.refl (place : Option Nat) (store : Store) :
    Reaches registry code place store place store :=
  ⟨0, .stay⟩

theorem Reaches.trans {start middle final : Option Nat} {store between last : Store}
    (first : Reaches registry code start store middle between)
    (second : Reaches registry code middle between final last) :
    Reaches registry code start store final last := by
  obtain ⟨count, goes⟩ := first
  obtain ⟨more, others⟩ := second
  exact ⟨count + more, goes.trans others⟩

theorem Advances.reaches {position : Nat} {final : Option Nat} {store last : Store}
    (advances : Advances registry code position store final last) :
    Reaches registry code (some position) store final last := by
  obtain ⟨count, goes⟩ := advances
  exact ⟨count + 1, goes⟩

theorem Advances.trans {position : Nat} {middle final : Option Nat} {store between last : Store}
    (first : Advances registry code position store middle between)
    (second : Reaches registry code middle between final last) :
    Advances registry code position store final last := by
  obtain ⟨count, goes⟩ := first
  obtain ⟨more, others⟩ := second
  refine ⟨count + more, ?_⟩
  rw [Nat.add_right_comm]
  exact goes.trans others

theorem Moves.advances {position : Nat} {middle final : Option Nat} {store between last : Store}
    (moves : Moves registry code position store middle between)
    (rest : Reaches registry code middle between final last) :
    Advances registry code position store final last := by
  obtain ⟨count, goes⟩ := rest
  exact ⟨count, .move moves goes⟩

/-- A jump on a condition leads to its target or on to the next instruction. -/
theorem Leads.jumpIf {position place : Nat} {target : Label} {condition : Prop} [Decidable condition]
    (leads : Leads code position (.goto target) (some place)) :
    Leads code position (.jumpIf condition target) (some (if condition then place else position + 1)) := by
  by_cases taken : condition
  · rw [if_pos taken, Flow.jumpIf, if_pos (decide_eq_true taken)]
    exact leads
  · rw [if_neg taken, Flow.jumpIf, if_neg (by simpa using taken)]
    exact .next

/-- Some code has the operations of a block from a position on, and the named labels of the block at the
same instructions. -/
def Holds (code : List Instruction) (start : Nat) (body : List Instruction) : Prop :=
  ∀ offset instruction, body[offset]? = some instruction →
    ∃ placed, code[start + offset]? = some placed ∧ placed.operation = instruction.operation ∧
      (instruction.label.isNamed = true → placed.label = instruction.label)

theorem Holds.self (code : List Instruction) : Holds code 0 code := by
  intro offset instruction found
  exact ⟨instruction, by rwa [Nat.zero_add], rfl, fun _ => rfl⟩

variable {start : Nat} {body : List Instruction} {store after last : Store} {final : Option Nat}
  {operation : Operation} {label : Label}

theorem Holds.moves (holds : Holds code start body) (offset : Nat) {instruction : Instruction}
    (found : body[offset]? = some instruction) (plain : instruction.operation.call? = none)
    {flow : Flow} (acts : instruction.operation.effect 0 store = (flow, after)) {next : Option Nat}
    (leads : Leads code (start + offset) flow next) :
    Moves registry code (start + offset) store next after := by
  obtain ⟨placed, present, same, _⟩ := holds offset instruction found
  rw [← same] at plain acts
  exact .intro present (Operation.answered_silent plain) acts leads

theorem Holds.next (holds : Holds code start body) (offset : Nat) {instruction : Instruction}
    (found : body[offset]? = some instruction) (plain : instruction.operation.call? = none)
    (acts : instruction.operation.effect 0 store = (.next, after))
    (rest : Reaches registry code (some (start + (offset + 1))) after final last) :
    Advances registry code (start + offset) store final last :=
  (holds.moves offset found plain acts .next).advances rest

theorem Holds.leads (holds : Holds code start body) (offset : Nat) {target : Label}
    (named : target.isNamed = true) (labeled : (body[offset]?).map Instruction.label = some target)
    {position : Nat} : Leads code position (.goto target) (some (start + offset)) := by
  obtain ⟨instruction, there, rfl⟩ := Option.map_eq_some_iff.mp labeled
  obtain ⟨placed, present, _, same⟩ := holds offset instruction there
  cases here : instruction.label with
  | empty | exit =>
      rw [here] at named
      cases named
  | named index => exact .named present ((same named).trans here)

theorem Holds.jump (holds : Holds code start body) (offset : Nat) {instruction : Instruction}
    (found : body[offset]? = some instruction) (plain : instruction.operation.call? = none)
    {target : Label} (acts : instruction.operation.effect 0 store = (.goto target, after))
    {place : Nat} (leads : Leads code (start + offset) (.goto target) (some place))
    (rest : Reaches registry code (some place) after final last) :
    Advances registry code (start + offset) store final last :=
  (holds.moves offset found plain acts leads).advances rest

theorem Holds.branch (holds : Holds code start body) (offset : Nat) {instruction : Instruction}
    (found : body[offset]? = some instruction) (plain : instruction.operation.call? = none)
    {condition : Prop} [Decidable condition] {target : Label}
    (acts : instruction.operation.effect 0 store = (.jumpIf condition target, after))
    {place : Nat} (leads : Leads code (start + offset) (.goto target) (some place))
    (rest : Reaches registry code (some (if condition then place else start + (offset + 1))) after
      final last) : Advances registry code (start + offset) store final last :=
  (holds.moves offset found plain acts (.jumpIf leads)).advances rest

/-- A jump out of the block. An empty target leads to the next instruction, so what follows it in the block
has to end at the same place. -/
theorem Holds.leave (holds : Holds code start body) (offset bottom : Nat) {instruction : Instruction}
    (found : body[offset]? = some instruction) (plain : instruction.operation.call? = none)
    {target : Label} (acts : instruction.operation.effect 0 store = (.goto target, last))
    (leads : Leads code (start + bottom) (.goto target) final)
    (fall : Reaches registry code (some (start + (offset + 1))) last (some (start + (bottom + 1))) last) :
    Advances registry code (start + offset) store final last := by
  cases leads with
  | empty => exact (holds.moves offset found plain acts .empty).advances fall
  | exit => exact (holds.moves offset found plain acts .exit).advances (.refl _ _)
  | named present here =>
      exact (holds.moves offset found plain acts (.named present here)).advances (.refl _ _)

theorem Holds.append {left right : List Instruction} (holds : Holds code start (left ++ right)) :
    Holds code start left ∧ Holds code (start + left.length) right := by
  constructor
  · intro offset instruction found
    obtain ⟨within, _⟩ := List.getElem?_eq_some_iff.mp found
    exact holds offset instruction (by rw [List.getElem?_append_left within, found])
  · intro offset instruction found
    obtain ⟨placed, present, rest⟩ := holds (left.length + offset) instruction (by
      rw [List.getElem?_append_right (Nat.le_add_right _ _), Nat.add_sub_cancel_left, found])
    exact ⟨placed, by rwa [Nat.add_assoc], rest⟩

theorem Holds.cons {first : Instruction} (holds : Holds code start (first :: body)) :
    Holds code (start + 1) body :=
  (@Holds.append code start [first] body holds).2

end Following

end CounterMachine
