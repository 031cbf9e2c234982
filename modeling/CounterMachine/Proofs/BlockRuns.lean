import CounterMachine.Proofs.Charges
set_option autoImplicit false

/-!
# Runs of blocks

Each block does what its operation does. A run that enters the block at its first instruction comes to the
place where the operation leads, with the store that the operation makes. Only the work variables of the
block may differ. The blocks that move counts need work variables that are 0, and give them back as 0.
-/

namespace CounterMachine

section Blocks

variable {registry : Registry} {code : List Instruction} {start : Nat} {store : Store}
  {final : Option Nat}

/-- What it costs to set a variable to 0 by counting it down. -/
def zeroCycles (value : UInt64) : Nat :=
  if value = 0 then 5 else 2 + 3 * value.toNat

theorem Holds.zero {subject spare : Variable} {body done : Label}
    (holds : Holds code start (Block.zero subject body done spare)) (bodyNamed : body.isNamed = true)
    (doneNamed : done.isNamed = true) (apart : spare ≠ subject) :
    ∃ last, Charges code (zeroCycles (store subject)) start store (start + 6) last ∧
      Agree [spare] (Function.update store subject 0) last := by
  have finish : ∀ last, Charges code 0 (start + 5) last (start + 6) last := by
    intro last
    exact holds.charges 5 rfl rfl rfl .next .none
  by_cases zero : store subject = 0
  · have nonzero : Function.update store spare (increased (store spare)) spare ≠ 0 := by
      rw [Function.update_self]
      exact increased_ne_zero _
    refine ⟨Function.update store spare (increased (store spare)), ?_, ?_⟩
    · rw [zeroCycles, if_pos zero]
      refine holds.charges 0 rfl rfl rfl (.jumpIf (holds.leads 3 bodyNamed rfl)) ?_
      rw [if_neg (not_not_intro zero)]
      refine holds.charges 1 rfl rfl rfl .next ?_
      refine holds.charges 2 rfl rfl rfl (.jumpIf (holds.leads 5 doneNamed rfl)) ?_
      rw [if_pos nonzero]
      exact finish _
    · refine .of_update ?_ (.update store (by simp) _)
      rw [Function.update_of_ne apart.symm]
      exact zero
  · obtain ⟨last, ⟨empty, agree⟩, route⟩ := @Holds.loop _ 1 _ store _ holds 3 4 subject body rfl
      bodyNamed rfl (fun count after => (after subject).toNat = count ∧ Agree [subject] store after)
      And.left
      (by
        intro count before invariant
        obtain ⟨counted, agree⟩ := invariant
        refine ⟨Function.update before subject (decreased (before subject)), ⟨?_, ?_⟩, ?_⟩
        · rw [Function.update_self, toNat_decreased, counted]
          rfl
        · exact agree.updated (by simp) _
        · exact holds.charges 3 rfl rfl rfl .next .none)
      _ (fun none => zero (UInt64.toNat_inj.mp none)) ⟨rfl, .refl _ _⟩
    refine ⟨last, ?_, ?_⟩
    · rw [zeroCycles, if_neg zero, Nat.add_comm]
      refine holds.charges 0 rfl rfl rfl (.jumpIf (holds.leads 3 bodyNamed rfl)) ?_
      rw [if_pos zero]
      exact route.trans (finish last)
    · exact .of_update (UInt64.toNat_inj.mp empty) (agree.mono (by simp))

theorem Holds.goto {target : Label} {spare : Variable}
    (holds : Holds code start (Block.goto target spare))
    (leads : Leads code (start + 1) (.goto target) final) :
    ∃ last, Advances registry code start store final last ∧ Agree [spare] store last := by
  have nonzero : Function.update store spare (increased (store spare)) spare ≠ 0 := by
    rw [Function.update_self]
    exact increased_ne_zero _
  refine ⟨Function.update store spare (increased (store spare)), ?_, .update store (by simp) _⟩
  refine holds.next 0 rfl rfl rfl (Advances.reaches ?_)
  exact holds.leave 1 1 rfl rfl (Prod.ext (if_pos (decide_eq_true nonzero)) rfl) leads (.refl _ _)

theorem Holds.jumpIfZero {subject : Variable} {target skip : Label}
    (holds : Holds code start (Block.jumpIfZero subject target skip)) (named : skip.isNamed = true)
    (leads : Leads code (start + 2) (.jumpIf (store subject = 0) target) final) :
    Advances registry code start store final store := by
  have finish : Reaches registry code (some (start + 2)) store (some (start + 3)) store :=
    (holds.next 2 rfl rfl rfl (.refl _ _)).reaches
  refine holds.branch 0 rfl rfl rfl (holds.leads 2 named rfl) ?_
  by_cases zero : store subject = 0
  · rw [Flow.jumpIf, if_pos (decide_eq_true zero)] at leads
    rw [if_neg (not_not_intro zero)]
    exact (holds.leave 1 2 rfl rfl rfl leads finish).reaches
  · rw [Flow.jumpIf, if_neg (by simpa using zero)] at leads
    rw [if_pos zero]
    cases leads
    exact finish

/-! ## Blocks that move counts -/

theorem Holds.increments {name : Variable} {count : Nat}
    (holds : Holds code start (List.replicate count (.plain (.increase name))))
    (room : (store name).toNat + count < UInt64.size) :
    ∃ last, Reaches registry code (some start) store (some (start + count)) last ∧
      (last name).toNat = (store name).toNat + count ∧ Agree [name] store last := by
  induction count generalizing start store with
  | zero => exact ⟨store, .refl _ _, rfl, .refl _ _⟩
  | succ count ih =>
      rw [List.replicate_succ] at holds
      have more : (Function.update store name (increased (store name)) name).toNat =
          (store name).toNat + 1 := by
        rw [Function.update_self]
        exact toNat_increased (by omega)
      obtain ⟨last, route, counted, agree⟩ := @ih (start + 1)
        (Function.update store name (increased (store name))) holds.cons (by omega)
      refine ⟨last, ?_, by omega, ?_⟩
      · rw [Nat.add_assoc, Nat.add_comm 1 count] at route
        exact (holds.next 0 rfl rfl rfl route).reaches
      · exact Agree.trans (.update store (by simp) _) agree

theorem Holds.pour {body : List Instruction} (holds : Holds code start body) (top : Nat)
    {source into : Variable} {again : Label}
    (down : body[top]? = some (.labeled again (.decrease source)))
    (up : body[top + 1]? = some (.plain (.increase into)))
    (back : body[top + 2]? = some (.plain (.jumpNotZero source again)))
    (named : again.isNamed = true) (apart : into ≠ source) (filled : store source ≠ 0)
    (room : (store into).toNat + (store source).toNat < UInt64.size) :
    ∃ last, Charges code (4 * (store source).toNat) (start + top) store (start + (top + 3)) last ∧
      last source = 0 ∧ (last into).toNat = (store into).toNat + (store source).toNat ∧
      Agree [source, into] store last := by
  obtain ⟨last, ⟨empty, sum, agree⟩, route⟩ := @Holds.loop _ 2 _ store _ holds top (top + 2) source
    again (by rw [back]; rfl) named (by rw [down]; rfl)
    (fun count after => (after source).toNat = count ∧
      (after into).toNat + count = (store into).toNat + (store source).toNat ∧
      Agree [source, into] store after)
    And.left
    (by
      intro count before invariant
      obtain ⟨counted, sum, agree⟩ := invariant
      let less := Function.update before source (decreased (before source))
      have same : less into = before into := Function.update_of_ne apart _ _
      refine ⟨Function.update less into (increased (less into)), ⟨?_, ?_, ?_⟩, ?_⟩
      · rw [Function.update_of_ne apart.symm]
        change (Function.update before source _ source).toNat = _
        rw [Function.update_self, toNat_decreased, counted]
        rfl
      · rw [Function.update_self, same, toNat_increased (by omega)]
        omega
      · exact (agree.updated (by simp) _).updated (by simp) _
      · refine holds.charges top down rfl rfl .next ?_
        exact holds.charges (top + 1) up rfl rfl .next .none)
    _ (fun none => filled (UInt64.toNat_inj.mp none)) ⟨rfl, rfl, .refl _ _⟩
  exact ⟨last, route, UInt64.toNat_inj.mp empty, sum, agree⟩

/-- What leaves the source comes to two variables at once. -/
theorem Holds.spread {body : List Instruction} (holds : Holds code start body) (top : Nat)
    {source one two : Variable} {again : Label}
    (down : body[top]? = some (.labeled again (.decrease source)))
    (up : body[top + 1]? = some (.plain (.increase one)))
    (alsoUp : body[top + 2]? = some (.plain (.increase two)))
    (back : body[top + 3]? = some (.plain (.jumpNotZero source again)))
    (named : again.isNamed = true) (apartOne : source ≠ one) (apartTwo : source ≠ two)
    (different : one ≠ two) (oneEmpty : store one = 0) (twoEmpty : store two = 0)
    (filled : store source ≠ 0) :
    ∃ last, Charges code (5 * (store source).toNat) (start + top) store (start + (top + 4)) last ∧
      last source = 0 ∧ last one = store source ∧ last two = store source ∧
      Agree [source, one, two] store last := by
  have room := (store source).toNat_lt_size
  obtain ⟨last, ⟨empty, toOne, toTwo, agree⟩, route⟩ := @Holds.loop _ 3 _ store _ holds top (top + 3)
    source again (by rw [back]; rfl) named (by rw [down]; rfl)
    (fun count after => (after source).toNat = count ∧
      (after one).toNat + count = (store source).toNat ∧
      (after two).toNat + count = (store source).toNat ∧ Agree [source, one, two] store after)
    And.left
    (by
      intro count before invariant
      obtain ⟨counted, toOne, toTwo, agree⟩ := invariant
      let less := Function.update before source (decreased (before source))
      let more := Function.update less one (increased (less one))
      have sameOne : less one = before one := Function.update_of_ne apartOne.symm _ _
      have sameTwo : more two = before two :=
        (Function.update_of_ne different.symm _ _).trans (Function.update_of_ne apartTwo.symm _ _)
      have lessSource : more source = decreased (before source) :=
        (Function.update_of_ne apartOne _ _).trans (Function.update_self _ _ _)
      have moreOne : more one = increased (before one) := by
        rw [← sameOne]
        exact Function.update_self _ _ _
      refine ⟨Function.update more two (increased (more two)), ⟨?_, ?_, ?_, ?_⟩, ?_⟩
      · rw [Function.update_of_ne apartTwo, lessSource, toNat_decreased, counted]
        rfl
      · rw [Function.update_of_ne different, moreOne, toNat_increased (by omega)]
        omega
      · rw [Function.update_self, sameTwo, toNat_increased (by omega)]
        omega
      · exact ((agree.updated (by simp) _).updated (by simp) _).updated (by simp) _
      · refine holds.charges top down rfl rfl .next ?_
        refine holds.charges (top + 1) up rfl rfl .next ?_
        exact holds.charges (top + 2) alsoUp rfl rfl .next .none)
    _ (fun none => filled (UInt64.toNat_inj.mp none)) ⟨rfl, by simp [oneEmpty], by simp [twoEmpty], .refl _ _⟩
  exact ⟨last, route, UInt64.toNat_inj.mp empty, UInt64.toNat_inj.mp toOne, UInt64.toNat_inj.mp toTwo, agree⟩

theorem Holds.constant {subject count : Variable} {value : UInt64} {pump after : Label}
    (holds : Holds code start (Block.constant subject value pump after count))
    (pumpNamed : pump.isNamed = true) (afterNamed : after.isNamed = true) (apart : count ≠ subject)
    (idle : store count = 0) :
    ∃ last, Advances registry code start store (some (start + (value.toNat + 7))) last ∧
      Agree [count] (Function.update store subject value) last ∧ last count = 0 := by
  obtain ⟨head, moving⟩ := Holds.append holds
  rw [List.length_cons, List.length_replicate] at moving
  let cleared := Function.update store subject 0
  have none : cleared count = 0 := (Function.update_of_ne apart _ _).trans idle
  obtain ⟨full, counting, counted, others⟩ := @Holds.increments registry _ _ cleared _ _ head.cons (by
    rw [none, UInt64.toNat_zero, Nat.zero_add]
    exact value.toNat_lt_size)
  rw [none, UInt64.toNat_zero, Nat.zero_add] at counted
  have empty : full subject = 0 := by
    rw [← others subject (by simpa using apart.symm)]
    exact Function.update_self _ _ _
  have entry : ∀ {last}, Reaches registry code (some (start + (value.toNat + 1))) full
      (some (start + (value.toNat + 1) + 6)) last →
      Advances registry code start store (some (start + (value.toNat + 7))) last := by
    intro last rest
    refine head.next 0 rfl rfl rfl (counting.trans ?_)
    rw [Nat.add_assoc start, Nat.add_comm 1]
    exact rest
  have finish : ∀ last, Reaches registry code (some (start + (value.toNat + 1) + 5)) last
      (some (start + (value.toNat + 1) + 6)) last := by
    intro last
    exact (moving.next 5 rfl rfl rfl (.refl _ _)).reaches
  have agreed : Agree [subject, count] store full :=
    Agree.trans (.update store (by simp) _) (others.mono (by simp))
  by_cases zero : value = 0
  · subst zero
    have unused : full count = 0 := UInt64.toNat_inj.mp counted
    refine ⟨full, entry (Advances.reaches ?_), .of_update empty agreed, unused⟩
    refine moving.branch 0 rfl rfl rfl (moving.leads 2 pumpNamed rfl) ?_
    rw [if_neg (not_not_intro unused)]
    exact (moving.jump 1 rfl rfl rfl (moving.leads 5 afterNamed rfl) (finish full)).reaches
  · have filled : full count ≠ 0 := by
      intro nothing
      rw [nothing] at counted
      exact zero (UInt64.toNat_inj.mp counted.symm)
    obtain ⟨last, pouring, drained, sum, agree⟩ := @Holds.pour _ _ full _ moving 2 count subject pump
      rfl rfl rfl pumpNamed apart.symm filled (by
        rw [empty, counted, UInt64.toNat_zero, Nat.zero_add]
        exact value.toNat_lt_size)
    rw [empty, counted, UInt64.toNat_zero, Nat.zero_add] at sum
    refine ⟨last, entry (Advances.reaches ?_), ?_, drained⟩
    · refine moving.branch 0 rfl rfl rfl (moving.leads 2 pumpNamed rfl) ?_
      rw [if_pos filled]
      exact pouring.reaches.trans (finish last)
    · exact .of_update (UInt64.toNat_inj.mp sum) (agreed.trans (agree.mono (by simp)))

/-- The loops of a copy: the source is drained, and then refilled together with the subject. -/
def Block.duplicate (subject source : Variable) (drain refill done : Label) (store : Variable) :
    List Instruction :=
  [.labeled drain (.decrease source),
    .plain (.increase store),
    .plain (.jumpNotZero source drain),
    .labeled refill (.decrease store),
    .plain (.increase subject),
    .plain (.increase source),
    .plain (.jumpNotZero store refill),
    .labeled done (.neutral subject)]

theorem Holds.duplicate {subject source spare : Variable} {drain refill done : Label}
    (holds : Holds code start (Block.duplicate subject source drain refill done spare))
    (drainNamed : drain.isNamed = true) (refillNamed : refill.isNamed = true) (different : subject ≠ source)
    (apartSubject : spare ≠ subject) (apartSource : spare ≠ source) (blank : store subject = 0)
    (idle : store spare = 0) (filled : store source ≠ 0) :
    ∃ last, Charges code (9 * (store source).toNat) start store (start + 8) last ∧
      Agree [spare] (Function.update store subject (store source)) last ∧ last spare = 0 := by
  obtain ⟨drained, draining, empty, full, others⟩ := @Holds.pour _ _ store _ holds 0 source spare
    drain rfl rfl rfl drainNamed apartSource filled (by
      rw [idle, UInt64.toNat_zero, Nat.zero_add]
      exact (store source).toNat_lt_size)
  rw [idle, UInt64.toNat_zero, Nat.zero_add] at full
  replace full : drained spare = store source := UInt64.toNat_inj.mp full
  have stillBlank : drained subject = 0 := by
    rw [← others subject (by simp [different, apartSubject.symm])]
    exact blank
  obtain ⟨last, refilling, spent, copied, restored, agree⟩ := @Holds.spread _ _ drained _ holds 3 spare
    subject source refill rfl rfl rfl rfl refillNamed apartSubject apartSource different stillBlank empty
    (by rwa [full])
  rw [full] at refilling copied restored
  refine ⟨last, ?_, .of_update copied ?_, spent⟩
  · rw [Nat.add_mul 4 5]
    exact draining.trans (refilling.trans (holds.charges 7 rfl rfl rfl .next .none))
  · intro name visible
    rw [List.mem_cons, List.mem_singleton, not_or] at visible
    by_cases isSource : name = source
    · subst isSource
      exact restored.symm
    · calc store name
          = drained name := others name (by simp [isSource, visible.2])
        _ = last name := agree name (by simp [isSource, visible.1, visible.2])

theorem Holds.copy {subject source spare : Variable} {drain refill done : Label}
    (holds : Holds code start (Block.copy subject source drain refill done spare))
    (drainNamed : drain.isNamed = true) (refillNamed : refill.isNamed = true)
    (doneNamed : done.isNamed = true) (different : subject ≠ source) (apartSubject : spare ≠ subject)
    (apartSource : spare ≠ source) (idle : store spare = 0) :
    ∃ last, Advances registry code start store (some (start + 11)) last ∧
      Agree [spare] (Function.update store subject (store source)) last ∧ last spare = 0 := by
  let cleared := Function.update store subject 0
  have kept : cleared source = store source := Function.update_of_ne different.symm _ _
  have none : cleared spare = 0 := (Function.update_of_ne apartSubject _ _).trans idle
  have loops : Holds code (start + 3) (Block.duplicate subject source drain refill done spare) :=
    holds.cons.cons.cons
  by_cases zero : store source = 0
  · refine ⟨cleared, ?_, by rw [zero]; exact .refl _ _, none⟩
    refine holds.next 0 rfl rfl rfl (Advances.reaches ?_)
    refine holds.branch 1 rfl rfl rfl (holds.leads 3 drainNamed rfl) ?_
    rw [if_neg (not_not_intro (kept.trans zero))]
    refine (holds.jump 2 rfl rfl rfl (holds.leads 10 doneNamed rfl) ?_).reaches
    exact (holds.next 10 rfl rfl rfl (.refl _ _)).reaches
  · obtain ⟨last, copying, agree, spent⟩ := @Holds.duplicate _ _ cleared _ _ _ _ _ _ loops drainNamed
      refillNamed different apartSubject apartSource (Function.update_self _ _ _) none (by rwa [kept])
    rw [kept, Function.update_idem] at agree
    refine ⟨last, ?_, agree, spent⟩
    refine holds.next 0 rfl rfl rfl (Advances.reaches ?_)
    refine holds.branch 1 rfl rfl rfl (holds.leads 3 drainNamed rfl) ?_
    rw [if_pos (by rwa [← kept] at zero)]
    exact copying.reaches

/-! ## Blocks that compare -/

/-- A number of rounds counts a variable down, unless it is 0 before the last one. -/
theorem Holds.rounds {name : Variable} {different : Label} {count place : Nat}
    (holds : Holds code start
      (List.replicate count [.plain (.jumpZero name different), .plain (.decrease name)]).flatten)
    (leads : ∀ {position}, Leads code position (.goto different) (some place)) :
    ∃ last, Agree [name] store last ∧
      if count ≤ (store name).toNat then
        Reaches registry code (some start) store (some (start + 2 * count)) last ∧
          (last name).toNat = (store name).toNat - count
      else Reaches registry code (some start) store (some place) last := by
  induction count generalizing start store with
  | zero => exact ⟨store, .refl _ _, by simpa using Reaches.refl _ _⟩
  | succ count ih =>
      rw [List.replicate_succ, List.flatten_cons] at holds
      have here := holds.append.1
      by_cases zero : store name = 0
      · refine ⟨store, .refl _ _, ?_⟩
        rw [if_neg (by simp [zero])]
        refine (here.branch 0 rfl rfl rfl leads ?_).reaches
        rw [if_pos zero]
        exact .refl _ _
      · have positive : (store name).toNat ≠ 0 := fun none => zero (UInt64.toNat_inj.mp none)
        have less : (Function.update store name (decreased (store name)) name).toNat =
            (store name).toNat - 1 := by
          rw [Function.update_self, toNat_decreased]
        obtain ⟨last, agree, route⟩ := @ih (start + 2)
          (Function.update store name (decreased (store name))) holds.append.2
        have entry : ∀ {final}, Reaches registry code (some (start + 2))
            (Function.update store name (decreased (store name))) final last →
            Reaches registry code (some start) store final last := by
          intro final rest
          refine (here.branch 0 rfl rfl rfl leads ?_).reaches
          rw [if_neg zero]
          exact (here.next 1 rfl rfl rfl rest).reaches
        refine ⟨last, Agree.trans (.update store (by simp) _) agree, ?_⟩
        rw [less] at route
        by_cases enough : count + 1 ≤ (store name).toNat
        · rw [if_pos (by omega)] at route
          rw [if_pos enough]
          obtain ⟨route, counted⟩ := route
          rw [Nat.add_assoc, Nat.add_comm 2, ← Nat.mul_succ] at route
          exact ⟨entry route, by omega⟩
        · rw [if_neg (by omega)] at route
          rw [if_neg enough]
          exact entry route

theorem Holds.jumpIfConstant {subject rest : Variable} {value : UInt64} {target different : Label}
    (holds : Holds code start (Block.jumpIfConstant subject value target different rest))
    (named : different.isNamed = true)
    (leads : Leads code (start + (2 * value.toNat + 3)) (.jumpIf (store subject = value) target) final) :
    ∃ last, Advances registry code start store final last ∧ Agree [rest] store last := by
  obtain ⟨head, ending⟩ := Holds.append holds
  have length : (Instruction.plain (.assignment rest subject) :: (List.replicate value.toNat
      [Instruction.plain (.jumpZero rest different), .plain (.decrease rest)]).flatten).length =
      2 * value.toNat + 1 := by
    simp [Nat.mul_comm]
  rw [length] at ending
  let copied := Function.update store rest (store subject)
  have original : copied rest = store subject := Function.update_self _ _ _
  obtain ⟨last, agree, route⟩ := @Holds.rounds registry _ _ copied _ _ _ _ head.cons
    fun {_} => ending.leads 2 named rfl
  rw [original] at route
  have entry : ∀ {final}, Reaches registry code (some (start + 1)) copied final last →
      Advances registry code start store final last :=
    fun {_} => head.next 0 rfl rfl rfl
  have finish : Reaches registry code (some (start + (2 * value.toNat + 1) + 2)) last
      (some (start + (2 * value.toNat + 1) + 3)) last :=
    (ending.next 2 rfl rfl rfl (.refl _ _)).reaches
  refine ⟨last, ?_, Agree.trans (.update store (by simp) _) agree⟩
  by_cases enough : value.toNat ≤ (store subject).toNat
  · rw [if_pos enough] at route
    obtain ⟨route, left⟩ := route
    refine entry (route.trans ?_)
    rw [Nat.add_assoc start, Nat.add_comm 1]
    refine (ending.branch 0 rfl rfl rfl (ending.leads 2 named rfl) ?_).reaches
    by_cases equal : store subject = value
    · have zero : last rest = 0 := UInt64.toNat_inj.mp (by simp [left, equal])
      rw [Flow.jumpIf, if_pos (decide_eq_true equal)] at leads
      rw [if_neg (not_not_intro zero)]
      exact (ending.leave 1 2 rfl rfl rfl leads finish).reaches
    · have nonzero : last rest ≠ 0 := by
        intro zero
        rw [zero, UInt64.toNat_zero] at left
        exact equal (UInt64.toNat_inj.mp (by omega))
      rw [Flow.jumpIf, if_neg (by simpa using equal)] at leads
      rw [if_pos nonzero]
      cases leads
      exact finish
  · rw [if_neg enough] at route
    have unequal : store subject ≠ value := by
      rintro rfl
      exact enough (Nat.le_refl _)
    rw [Flow.jumpIf, if_neg (by simpa using unequal)] at leads
    cases leads
    exact entry (route.trans finish)

/-- Two variables are counted down together until one of them is 0. -/
theorem Holds.compare {subject other left right : Variable} {target again check different : Label}
    (holds : Holds code start
      (Block.jumpIfEqual subject other target again check different left right))
    (againNamed : again.isNamed = true) (checkNamed : check.isNamed = true)
    (differentNamed : different.isNamed = true) (apart : left ≠ right) {count : Nat}
    (counted : (store left).toNat = count) :
    ∃ last, Agree [left, right] store last ∧
      if store left = store right then
        Reaches registry code (some (start + 2)) store (some (start + 7)) last ∧ last right = 0
      else Reaches registry code (some (start + 2)) store (some (start + 8)) last := by
  induction count generalizing store with
  | zero =>
      have zero : store left = 0 := UInt64.toNat_inj.mp counted
      refine ⟨store, .refl _ _, ?_⟩
      have toCheck : Reaches registry code (some (start + 2)) store (some (start + 7)) store := by
        refine (holds.branch 2 rfl rfl rfl (holds.leads 7 checkNamed rfl) ?_).reaches
        rw [if_pos zero]
        exact .refl _ _
      by_cases equal : store left = store right
      · rw [if_pos equal]
        exact ⟨toCheck, equal ▸ zero⟩
      · rw [if_neg equal]
        refine toCheck.trans (holds.next 7 rfl rfl ?_ (.refl _ _)).reaches
        exact Prod.ext (if_neg (by simpa [← zero, eq_comm] using equal)) rfl
  | succ count ih =>
      have nonzero : store left ≠ 0 := by
        intro zero
        rw [zero] at counted
        cases counted
      by_cases zero : store right = 0
      · refine ⟨store, .refl _ _, ?_⟩
        rw [if_neg (by rwa [zero])]
        refine (holds.branch 2 rfl rfl rfl (holds.leads 7 checkNamed rfl) ?_).reaches
        rw [if_neg nonzero]
        refine (holds.branch 3 rfl rfl rfl (holds.leads 8 differentNamed rfl) ?_).reaches
        rw [if_pos zero]
        exact .refl _ _
      · let less := Function.update store left (decreased (store left))
        let both := Function.update less right (decreased (less right))
        have atLeft : both left = decreased (store left) :=
          (Function.update_of_ne apart _ _).trans (Function.update_self _ _ _)
        have atRight : both right = decreased (store right) := by
          change Function.update less right (decreased (less right)) right = _
          rw [Function.update_self]
          exact congrArg decreased (Function.update_of_ne apart.symm _ _)
        have positive : (store right).toNat ≠ 0 := fun none => zero (UInt64.toNat_inj.mp none)
        -- Both are one less, so they are equal if and only if they were.
        have sameTest : both left = both right ↔ store left = store right := by
          rw [atLeft, atRight, ← UInt64.toNat_inj, ← UInt64.toNat_inj, toNat_decreased, toNat_decreased]
          omega
        have entry : ∀ {final last}, Reaches registry code (some (start + 2)) both final last →
            Reaches registry code (some (start + 2)) store final last := by
          intro final last rest
          refine (holds.branch 2 rfl rfl rfl (holds.leads 7 checkNamed rfl) ?_).reaches
          rw [if_neg nonzero]
          refine (holds.branch 3 rfl rfl rfl (holds.leads 8 differentNamed rfl) ?_).reaches
          rw [if_neg zero]
          refine (holds.next 4 rfl rfl rfl (Advances.reaches ?_)).reaches
          refine holds.next 5 rfl rfl rfl (Advances.reaches ?_)
          exact holds.jump 6 rfl rfl rfl (holds.leads 2 againNamed rfl) rest
        obtain ⟨last, agree, route⟩ := @ih both (by rw [atLeft, toNat_decreased, counted]; rfl)
        refine ⟨last, Agree.trans ((Agree.update store (by simp) _).updated (by simp) _) agree, ?_⟩
        by_cases equal : store left = store right
        · rw [if_pos (sameTest.mpr equal)] at route
          rw [if_pos equal]
          exact ⟨entry route.1, route.2⟩
        · rw [if_neg (fun same => equal (sameTest.mp same))] at route
          rw [if_neg equal]
          exact entry route

theorem Holds.jumpIfEqual {subject other left right : Variable} {target again check different : Label}
    (holds : Holds code start
      (Block.jumpIfEqual subject other target again check different left right))
    (againNamed : again.isNamed = true) (checkNamed : check.isNamed = true)
    (differentNamed : different.isNamed = true) (apart : left ≠ right) (apartOther : left ≠ other)
    (leads : Leads code (start + 8) (.jumpIf (store subject = store other) target) final) :
    ∃ last, Advances registry code start store final last ∧ Agree [left, right] store last := by
  let one := Function.update store left (store subject)
  let both := Function.update one right (one other)
  have atLeft : both left = store subject :=
    (Function.update_of_ne apart _ _).trans (Function.update_self _ _ _)
  have atRight : both right = store other :=
    (Function.update_self _ _ _).trans (Function.update_of_ne apartOther.symm _ _)
  obtain ⟨last, agree, route⟩ := @Holds.compare registry _ _ both _ _ _ _ _ _ _ _ holds againNamed
    checkNamed differentNamed apart _ rfl
  rw [atLeft, atRight] at route
  have entry : Reaches registry code (some (start + 2)) both final last →
      Advances registry code start store final last := by
    intro rest
    refine holds.next 0 rfl rfl rfl (Advances.reaches ?_)
    exact holds.next 1 rfl rfl rfl rest
  have finish : Reaches registry code (some (start + 8)) last (some (start + 9)) last :=
    (holds.next 8 rfl rfl rfl (.refl _ _)).reaches
  refine ⟨last, ?_, Agree.trans ((Agree.update store (by simp) _).updated (by simp) _) agree⟩
  by_cases equal : store subject = store other
  · rw [if_pos equal] at route
    rw [Flow.jumpIf, if_pos (decide_eq_true equal)] at leads
    refine entry (route.1.trans (holds.leave 7 8 rfl rfl ?_ leads finish).reaches)
    exact Prod.ext (if_pos (decide_eq_true route.2)) rfl
  · rw [if_neg equal] at route
    rw [Flow.jumpIf, if_neg (by simpa using equal)] at leads
    cases leads
    exact entry (route.trans finish)

end Blocks

end CounterMachine
