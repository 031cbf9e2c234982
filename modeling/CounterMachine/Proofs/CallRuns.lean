import CounterMachine.Proofs.Renaming
import CounterMachine.Proofs.Routes
set_option autoImplicit false

/-!
# Runs of inlined calls

The copy of a function runs in lockstep with the function: the variables of the frame mirror the known
variables of the function, and the end of the copy stands for the end of the function. Before the copy is
entered, the frame is set to what the function starts with, so the copy may be entered again and again. The
run leaves the copy if and only if the call has an answer.
-/

namespace CounterMachine

open Inlining

section Preparation

variable {registry : Registry} {code : List Instruction} {start : Nat} {store last : Store}

theorem Holds.clear {names : List Variable}
    (holds : Holds code start (names.map fun name => .plain (.zeroVariable name))) :
    ∃ last, Reaches registry code (some start) store (some (start + names.length)) last ∧
      (∀ name ∈ names, last name = 0) ∧ Agree names store last := by
  induction names generalizing start store with
  | nil => exact ⟨store, .refl _ _, nofun, .refl _ _⟩
  | cons name names ih =>
      rw [List.map_cons] at holds
      obtain ⟨last, route, zeros, agree⟩ := @ih (start + 1) (Function.update store name 0) holds.cons
      refine ⟨last, ?_, ?_, ?_⟩
      · rw [Nat.add_assoc, Nat.add_comm 1] at route
        exact (holds.next 0 rfl rfl rfl route).reaches
      · intro other member
        by_cases later : other ∈ names
        · exact zeros other later
        · rcases List.mem_cons.mp member with same | later
          · rw [← agree other later, same]
            exact Function.update_self _ _ _
          · exact zeros other later
      · refine Agree.trans (.update store List.mem_cons_self 0) (agree.mono ?_)
        exact List.subset_cons_of_subset _ (List.Subset.refl _)

theorem answers_of_bind {slot : Variable} {argument : Argument} {answer : UInt64}
    (answered : (Inlining.bind slot argument).Answered registry store answer) :
    ∃ value, argument.Answers registry store value := by
  cases argument with
  | var name =>
      refine ⟨store name, ?_⟩
      rw [Argument.Answers]
  | call function arguments => exact ⟨answer, answered _ rfl⟩

theorem Holds.bind {slot : Variable} {argument : Argument} {body : List Instruction}
    (holds : Holds code start (.plain (Inlining.bind slot argument) :: body)) {value : UInt64}
    (answers : argument.Answers registry store value) :
    Moves registry code start store (some (start + 1)) (Function.update store slot value) := by
  obtain ⟨placed, present, same, _⟩ := holds 0 _ rfl
  have answered : (Inlining.bind slot argument).Answered registry store value ∧
      (Inlining.bind slot argument).effect value store = (.next, Function.update store slot value) := by
    cases argument with
    | var name =>
        rw [Argument.Answers] at answers
        subst answers
        exact ⟨nofun, rfl⟩
    | call function arguments =>
        refine ⟨?_, rfl⟩
        intro call calls
        cases calls
        exact answers
  change placed.operation = Inlining.bind slot argument at same
  rw [← same] at answered
  exact .intro present answered.1 answered.2 .next

theorem Holds.bindings {slots : List Variable} {arguments : List Argument}
    (holds : Holds code start
      ((slots.zip arguments).map fun (slot, argument) => .plain (Inlining.bind slot argument)))
    (lengths : slots.length = arguments.length)
    (fresh : ∀ slot ∈ slots, slot ∉ Argument.varsAll arguments) {values : List UInt64}
    (answers : Argument.AnswersAll registry store arguments values) :
    Reaches registry code (some start) store (some (start + slots.length))
      (store.bind (slots.zip values)) := by
  induction arguments generalizing slots start store values with
  | nil =>
      rw [List.length_nil, List.length_eq_zero_iff] at lengths
      subst lengths
      exact .refl _ _
  | cons argument arguments ih =>
      cases slots with
      | nil => cases lengths
      | cons slot slots =>
          rw [Argument.AnswersAll] at answers
          rw [Argument.varsAll] at fresh
          obtain ⟨value, others, rfl, first, rest⟩ := answers
          rw [List.zip_cons_cons, List.map_cons] at holds
          have absent : slot ∉ Argument.varsAll arguments := fun occurs =>
            fresh slot List.mem_cons_self (List.mem_append_right _ occurs)
          have route := @ih (start + 1) (Function.update store slot value) slots holds.cons
            (by simpa using lengths)
            (fun other member occurs =>
              fresh other (List.mem_cons_of_mem _ member) (List.mem_append_right _ occurs))
            others ((Argument.answersAll_update absent value).mpr rest)
          rw [Nat.add_assoc, Nat.add_comm 1] at route
          exact ((holds.bind first).advances route).reaches

theorem Holds.answersAll_of_halts (distinct : (attached code).Nodup) {slots : List Variable}
    {arguments : List Argument}
    (holds : Holds code start
      ((slots.zip arguments).map fun (slot, argument) => .plain (Inlining.bind slot argument)))
    (lengths : slots.length = arguments.length)
    (fresh : ∀ slot ∈ slots, slot ∉ Argument.varsAll arguments) {count : Nat}
    (halts : Halts registry code count (some start) store last) :
    ∃ values, Argument.AnswersAll registry store arguments values := by
  induction arguments generalizing slots start store count with
  | nil =>
      refine ⟨[], ?_⟩
      rw [Argument.AnswersAll]
  | cons argument arguments ih =>
      cases slots with
      | nil => cases lengths
      | cons slot slots =>
          rw [Argument.varsAll] at fresh
          rw [List.zip_cons_cons, List.map_cons] at holds
          obtain ⟨placed, present, same, _⟩ := holds 0 _ rfl
          obtain ⟨answer, answered⟩ := halts.answered present
          rw [same] at answered
          obtain ⟨value, first⟩ := answers_of_bind answered
          have absent : slot ∉ Argument.varsAll arguments := fun occurs =>
            fresh slot List.mem_cons_self (List.mem_append_right _ occurs)
          obtain ⟨less, _, others⟩ := halts.split distinct (.move (holds.bind first) .stay)
          obtain ⟨values, rest⟩ := ih holds.cons (by simpa using lengths)
            (fun other member occurs =>
              fresh other (List.mem_cons_of_mem _ member) (List.mem_append_right _ occurs)) others
          refine ⟨value :: values, ?_⟩
          rw [Argument.AnswersAll]
          exact ⟨value, values, rfl, first, (Argument.answersAll_update absent value).mp rest⟩

end Preparation

/-! ## The copy of a function -/

/-- Some code has a copy of a function, followed by the use of the result. -/
structure Copied (registry : Registry) (code : List Instruction) (base : Nat) (callee : Routine)
    (frame : Frame) (subject : Variable) (use : Use) : Prop where
  wellFormed : callee.WellFormed registry
  fits : frame.Fits callee
  named : ∀ label ∈ frame.draft.labels, label.isNamed = true
  works : frame.draft.works.Nodup
  holds : Holds code base (callee.instructions.map (frame.copyOf callee) ++ [frame.tail subject use])

namespace Copied

variable {registry : Registry} {code : List Instruction} {base : Nat} {callee : Routine} {frame : Frame}
  {subject : Variable} {use : Use} {original copy : Store}

/-- Where the copy goes on when the function goes on at a place; its end stands for leaving it. -/
theorem leads (copied : Copied registry code base callee frame subject use) {position : Nat}
    {instruction : Instruction} (member : instruction ∈ callee.instructions) {flow : Flow}
    (flows : flow = .next ∨ ∃ target, instruction.operation.target? = some target ∧ flow = .goto target)
    {next : Option Nat} (leads : Leads callee.instructions position flow next) :
    Leads code (base + position)
      (flow.mapTarget fun target => frame.redirect (frame.renameLabel callee target))
      (some (base + next.getD callee.instructions.length)) := by
  have labels : ∀ {place copy}, (callee.instructions.map (frame.copyOf callee) ++
      [frame.tail subject use])[place]? = some copy → copy.label.isNamed = true →
      Leads code (base + position) (.goto copy.label) (some (base + place)) := by
    intro place copy found isNamed
    exact copied.holds.leads place isNamed (by rw [found]; rfl)
  cases leads with
  | next => exact .next
  | empty =>
      rw [Flow.mapTarget, Frame.renameLabel_of_not_named rfl]
      exact .empty
  | exit =>
      rcases flows with impossible | ⟨target, jumps, same⟩
      · cases impossible
      · cases same
        have exits : jumpsToExit callee = true :=
          List.any_eq_true.mpr ⟨instruction, member, by simp [Instruction.target?, jumps]⟩
        obtain ⟨leave, found⟩ := Option.isSome_iff_exists.mp (copied.fits.leave.trans exits)
        have isNamed := copied.named leave (by simp [Frame.draft, found])
        have ending := @labels callee.instructions.length (frame.tail subject use) (by simp)
          (by simpa [Frame.tail, Instruction.labeled, found] using isNamed)
        rw [Flow.mapTarget, Frame.renameLabel_of_not_named rfl]
        simpa [Frame.redirect, found, Frame.tail, Instruction.labeled] using ending
  | @named place index destination present label =>
      have known : Label.named index ∈ localLabels callee := Frame.mem_localLabels.mpr
        ⟨destination, List.mem_of_getElem? present,
          Instruction.label_mem_names.mpr ⟨rfl, .inl label⟩⟩
      have isNamed := copied.named _ (List.mem_append_left _ (Frame.renameLabel_mem copied.fits known))
      have there := @labels place (frame.copyOf callee destination)
        (by
          obtain ⟨within, _⟩ := List.getElem?_eq_some_iff.mp present
          rw [List.getElem?_append_left (by simpa using within), List.getElem?_map, present]
          rfl)
        (by rwa [Frame.label_copyOf, label])
      rw [Flow.mapTarget, Frame.redirect_of_named isNamed]
      rwa [Frame.label_copyOf, label] at there

theorem placed (copied : Copied registry code base callee frame subject use) {position : Nat}
    {instruction : Instruction} (found : callee.instructions[position]? = some instruction) :
    ∃ placed, code[base + position]? = some placed ∧
      placed.operation = (frame.copyOf callee instruction).operation := by
  obtain ⟨within, _⟩ := List.getElem?_eq_some_iff.mp found
  obtain ⟨placed, present, same, _⟩ := copied.holds position (frame.copyOf callee instruction) (by
    rw [List.getElem?_append_left (by simpa using within), List.getElem?_map, found]
    rfl)
  exact ⟨placed, present, same⟩

theorem answered_iff (copied : Copied registry code base callee frame subject use)
    (mirrors : Mirrors (knownVars callee) (frame.renameVar callee) original copy)
    {instruction : Instruction} (member : instruction ∈ callee.instructions) {answer : UInt64} :
    (frame.copyOf callee instruction).operation.Answered registry copy answer ↔
      instruction.operation.Answered registry original answer := by
  rw [Frame.copyOf, Operation.answered_mapTarget, Instruction.mapLabels, Operation.answered_mapTarget]
  exact Operation.answered_mapVars mirrors fun _ => copied.wellFormed.known member

theorem effect (copied : Copied registry code base callee frame subject use)
    (mirrors : Mirrors (knownVars callee) (frame.renameVar callee) original copy)
    {instruction : Instruction} (member : instruction ∈ callee.instructions) {answer : UInt64}
    {flow : Flow} {after : Store} (acts : instruction.operation.effect answer original = (flow, after)) :
    ∃ copyAfter, (frame.copyOf callee instruction).operation.effect answer copy =
        (flow.mapTarget fun target => frame.redirect (frame.renameLabel callee target), copyAfter) ∧
      Mirrors (knownVars callee) (frame.renameVar callee) after copyAfter ∧
      Agree frame.draft.works copy copyAfter := by
  have known : ∀ name ∈ instruction.operation.vars, name ∈ knownVars callee :=
    fun _ => copied.wellFormed.known member
  obtain ⟨sameFlow, mirrored⟩ := Operation.effect_mapVars mirrors
    (fun _ left _ right => Frame.renameVar_injOn copied.fits copied.wellFormed.distinct copied.works left right)
    known answer
  rw [acts] at sameFlow mirrored
  refine ⟨_, ?_, mirrored, ?_⟩
  · rw [Frame.copyOf, Operation.effect_mapTarget, Instruction.mapLabels, Operation.effect_mapTarget,
      Instruction.mapVars, sameFlow]
    cases flow <;> rfl
  · intro name visible
    refine (Operation.effect_frame answer copy _ ?_).symm
    rw [Operation.vars_mapVars, List.mem_map]
    intro occurs
    obtain ⟨replaced, mentioned, same⟩ := occurs
    exact visible (same ▸ Frame.renameVar_mem copied.fits copied.wellFormed.distinct (known _ mentioned))

theorem moves (copied : Copied registry code base callee frame subject use)
    (mirrors : Mirrors (knownVars callee) (frame.renameVar callee) original copy) {position : Nat}
    {next : Option Nat} {after : Store}
    (moves : Moves registry callee.instructions position original next after) :
    ∃ copyAfter, Moves registry code (base + position) copy
        (some (base + next.getD callee.instructions.length)) copyAfter ∧
      Mirrors (knownVars callee) (frame.renameVar callee) after copyAfter ∧
      Agree frame.draft.works copy copyAfter := by
  cases moves with
  | @intro instruction answer flow found answered acts led =>
      have member := List.mem_of_getElem? found
      obtain ⟨placed, present, same⟩ := copied.placed found
      obtain ⟨copyAfter, copyActs, mirrored, agree⟩ := copied.effect mirrors member acts
      have copyAnswered := (copied.answered_iff mirrors member).mpr answered
      have flows := Operation.flow_effect answer original instruction.operation
      rw [acts] at flows
      rw [← same] at copyActs copyAnswered
      exact ⟨copyAfter, .intro present copyAnswered copyActs (copied.leads member flows led), mirrored, agree⟩

theorem goes (copied : Copied registry code base callee frame subject use) {count : Nat}
    {place final : Option Nat} {last : Store}
    (goes : Goes registry callee.instructions count place original final last)
    (mirrors : Mirrors (knownVars callee) (frame.renameVar callee) original copy) :
    ∃ copyLast, Reaches registry code (some (base + place.getD callee.instructions.length)) copy
        (some (base + final.getD callee.instructions.length)) copyLast ∧
      Mirrors (knownVars callee) (frame.renameVar callee) last copyLast ∧
      Agree frame.draft.works copy copyLast := by
  induction goes generalizing copy with
  | stay => exact ⟨copy, .refl _ _, mirrors, .refl _ _⟩
  | move moves _ ih =>
      obtain ⟨between, first, mirrored, agree⟩ := copied.moves mirrors moves
      obtain ⟨copyLast, others, mirroredLast, later⟩ := ih mirrored
      exact ⟨copyLast, (first.advances others).reaches, mirroredLast, agree.trans later⟩

theorem reaches_end (copied : Copied registry code base callee frame subject use) {count : Nat}
    {last : Store} (halts : Halts registry callee.instructions count (some 0) original last)
    (mirrors : Mirrors (knownVars callee) (frame.renameVar callee) original copy) :
    ∃ copyLast, Reaches registry code (some base) copy
        (some (base + callee.instructions.length)) copyLast ∧
      Mirrors (knownVars callee) (frame.renameVar callee) last copyLast ∧
      Agree frame.draft.works copy copyLast := by
  obtain ⟨final, goes, outside⟩ := halts
  have inside := goes.within (Nat.zero_le _)
  have ended : final.getD callee.instructions.length = callee.instructions.length := by
    cases final with
    | none => rfl
    | some place => exact Nat.le_antisymm inside (outside place rfl)
  have route := copied.goes goes mirrors
  rwa [ended] at route

/-- A run that comes out of the copy comes from a function that halts. -/
theorem halts_of_halts (copied : Copied registry code base callee frame subject use)
    (distinct : (attached code).Nodup) {count position : Nat} {last : Store}
    (mirrors : Mirrors (knownVars callee) (frame.renameVar callee) original copy)
    (halts : Halts registry code count (some (base + position)) copy last) :
    ∃ steps ended, Halts registry callee.instructions steps (some position) original ended := by
  induction count using Nat.strong_induction_on generalizing position original copy with
  | _ count ih =>
      cases found : callee.instructions[position]? with
      | none =>
          refine ⟨0, original, _, .stay, ?_⟩
          intro place same
          cases same
          exact List.getElem?_eq_none_iff.mp found
      | some instruction =>
          have member := List.mem_of_getElem? found
          obtain ⟨placed, present, same⟩ := copied.placed found
          obtain ⟨answer, answered⟩ := halts.answered present
          rw [same, copied.answered_iff mirrors member] at answered
          obtain ⟨next, led⟩ := copied.wellFormed.resolved.leads member
            (Operation.flow_effect answer original instruction.operation)
          have first : Moves registry callee.instructions position original next _ :=
            .intro found answered rfl led
          obtain ⟨copyAfter, move, mirrored, _⟩ := copied.moves mirrors first
          obtain ⟨rest, total, others⟩ := halts.split distinct (.move move .stay)
          cases next with
          | none => exact ⟨1, _, none, .move first .stay, nofun⟩
          | some place =>
              obtain ⟨steps, ended, final, path, outside⟩ := ih rest (by omega) mirrored others
              exact ⟨steps + 1, ended, final, .move first path, outside⟩

end Copied

/-! ## The whole call -/

/-- Some code has the block of a call, with a frame that the call does not mention. -/
structure Inlined (registry : Registry) (code : List Instruction) (start : Nat) (callee : Routine)
    (frame : Frame) (subject : Variable) (arguments : List Argument) (use : Use) : Prop where
  wellFormed : callee.WellFormed registry
  fits : frame.Fits callee
  arity : callee.inputs.length = arguments.length
  named : ∀ label ∈ frame.draft.labels, label.isNamed = true
  works : frame.draft.works.Nodup
  fresh : ∀ name ∈ frame.draft.works, name ≠ subject ∧ name ∉ Argument.varsAll arguments
  holds : Holds code start (frame.block subject callee arguments use)

namespace Inlined

variable {registry : Registry} {code : List Instruction} {start : Nat} {callee : Routine} {frame : Frame}
  {subject : Variable} {arguments : List Argument} {use : Use} {store : Store}

theorem parts (inlined : Inlined registry code start callee frame subject arguments use) :
    Holds code start [.plain (.neutral subject)] ∧ Holds code (start + 1) frame.clear ∧
      Holds code (start + (frame.locals.length + 2)) (frame.bindings arguments) ∧
      Copied registry code (start + (frame.locals.length + frame.slots.length + 2)) callee frame subject
        use := by
  have holds := inlined.holds
  rw [Frame.block, ← List.singleton_append, List.append_assoc, List.append_assoc] at holds
  obtain ⟨first, rest⟩ := holds.append
  obtain ⟨clearing, rest⟩ := rest.append
  obtain ⟨binding, copying⟩ := rest.append
  have lengths : frame.slots.length = arguments.length := inlined.fits.slots.trans inlined.arity
  have cleared : start + [Instruction.plain (.neutral subject)].length + frame.clear.length =
      start + (frame.locals.length + 2) := by
    simp [Frame.clear]
    omega
  have bound : start + (frame.locals.length + 2) + (frame.bindings arguments).length =
      start + (frame.locals.length + frame.slots.length + 2) := by
    simp [Frame.bindings, lengths]
    omega
  rw [cleared] at binding
  rw [cleared, bound] at copying
  exact ⟨first, clearing, binding, {
    wellFormed := inlined.wellFormed
    fits := inlined.fits
    named := inlined.named
    works := inlined.works
    holds := copying }⟩

theorem prepare (inlined : Inlined registry code start callee frame subject arguments use) :
    ∃ cleared, Advances registry code start store (some (start + (frame.locals.length + 2))) cleared ∧
      (∀ name ∈ frame.answer :: frame.locals, cleared name = 0) ∧
      Agree (frame.answer :: frame.locals) store cleared := by
  obtain ⟨first, clearing, _, _⟩ := inlined.parts
  obtain ⟨cleared, route, zeros, agree⟩ := @Holds.clear registry _ _ store _ clearing
  refine ⟨cleared, first.next 0 rfl rfl rfl ?_, zeros, agree⟩
  rw [List.length_cons, Nat.add_assoc, Nat.add_comm 1] at route
  exact route

theorem cleared_subset_works : frame.answer :: frame.locals ⊆ frame.draft.works := by
  intro name member
  rcases List.mem_cons.mp member with same | inLocals
  · subst same
    exact List.mem_cons_self
  · exact List.mem_append_right _ inLocals

theorem slots_subset_works : frame.slots ⊆ frame.draft.works := by
  intro name member
  exact List.mem_append_left _ (List.mem_cons_of_mem _ member)

theorem answersAll_cleared (inlined : Inlined registry code start callee frame subject arguments use)
    {cleared : Store} (agree : Agree (frame.answer :: frame.locals) store cleared)
    {values : List UInt64} :
    Argument.AnswersAll registry cleared arguments values ↔
      Argument.AnswersAll registry store arguments values := by
  apply Argument.answersAll_congr
  intro name occurs
  refine (agree name ?_).symm
  intro inFrame
  exact (inlined.fresh name (cleared_subset_works inFrame)).2 occurs

theorem slots_fresh (inlined : Inlined registry code start callee frame subject arguments use) :
    ∀ slot ∈ frame.slots, slot ∉ Argument.varsAll arguments :=
  fun slot member => (inlined.fresh slot (slots_subset_works member)).2

/-- The values of a frame at the start: 0 for the result, the arguments, and 0 for all others. -/
theorem map_bind {answer : Variable} {slots others : List Variable} {values : List UInt64}
    (distinct : (answer :: slots ++ others).Nodup) (lengths : slots.length = values.length)
    (zeros : ∀ name ∈ answer :: others, store name = 0) :
    (answer :: slots ++ others).map (store.bind (slots.zip values)) =
      0 :: values ++ List.replicate others.length 0 := by
  rw [List.cons_append, List.nodup_cons] at distinct
  obtain ⟨answerApart, distinct⟩ := distinct
  obtain ⟨slotsDistinct, _, apart⟩ := List.nodup_append.mp distinct
  have atAnswer : store.bind (slots.zip values) answer = 0 := by
    rw [Store.bind_zip_of_not_mem fun member => answerApart (List.mem_append_left _ member)]
    exact zeros answer List.mem_cons_self
  have atOthers : others.map (store.bind (slots.zip values)) = List.replicate others.length 0 := by
    rw [← List.map_const']
    refine List.map_congr_left ?_
    intro name member
    rw [Store.bind_zip_of_not_mem fun inSlots => apart name inSlots name member rfl]
    exact zeros name (List.mem_cons_of_mem _ member)
  rw [List.map_append, List.map_cons, atAnswer, Store.map_bind_zip slotsDistinct lengths, atOthers]

theorem mirrors (inlined : Inlined registry code start callee frame subject arguments use)
    (zeros : ∀ name ∈ frame.answer :: frame.locals, store name = 0) {values : List UInt64}
    (lengths : values.length = arguments.length) :
    Mirrors (knownVars callee) (frame.renameVar callee)
      (Store.bind (fun _ => 0) (callee.inputs.zip values)) (store.bind (frame.slots.zip values)) := by
  have known := inlined.wellFormed.distinct
  have atFrame := @map_bind store _ _ _ values inlined.works
    (by rw [inlined.fits.slots, inlined.arity, lengths]) zeros
  have atCallee := @map_bind (fun _ => 0) _ _ _ values known (by rw [inlined.arity, lengths])
    fun _ _ => rfl
  rw [inlined.fits.locals, ← atCallee] at atFrame
  have renamed : frame.answer :: frame.slots ++ frame.locals =
      (knownVars callee).map (frame.renameVar callee) :=
    (Frame.map_renameVar inlined.fits known).symm
  rw [renamed, List.map_map] at atFrame
  exact List.map_inj_left.mp atFrame

theorem enter (inlined : Inlined registry code start callee frame subject arguments use)
    {values : List UInt64} (answers : Argument.AnswersAll registry store arguments values) :
    ∃ copy, Advances registry code start store
        (some (start + (frame.locals.length + frame.slots.length + 2))) copy ∧
      Mirrors (knownVars callee) (frame.renameVar callee)
        (Store.bind (fun _ => 0) (callee.inputs.zip values)) copy ∧
      Agree frame.draft.works store copy := by
  obtain ⟨cleared, route, zeros, agree⟩ := @prepare registry _ _ _ _ _ _ _ store inlined
  obtain ⟨_, _, binding, _⟩ := inlined.parts
  have lengths : frame.slots.length = arguments.length := inlined.fits.slots.trans inlined.arity
  have bound := binding.bindings lengths inlined.slots_fresh ((inlined.answersAll_cleared agree).mpr answers)
  refine ⟨cleared.bind (frame.slots.zip values), ?_, inlined.mirrors zeros answers.length, ?_⟩
  · refine route.trans ?_
    rw [Nat.add_assoc, Nat.add_right_comm _ 2] at bound
    exact bound
  · refine (agree.mono cleared_subset_works).trans ?_
    intro name visible
    exact (Store.bind_zip_of_not_mem fun member => visible (slots_subset_works member)).symm

theorem subject_visible (inlined : Inlined registry code start callee frame subject arguments use) :
    subject ∉ frame.draft.works :=
  fun member => (inlined.fresh subject member).1 rfl

theorem finish (inlined : Inlined registry code start callee frame subject arguments use)
    {function : String} {copy : Store} {answer : UInt64} (result : copy frame.answer = answer)
    (agree : Agree frame.draft.works store copy) {final : Option Nat}
    (leads : Leads code (start + ((frame.block subject callee arguments use).length - 1))
      ((use.composition subject ⟨function, arguments⟩).effect answer store).1 final) :
    ∃ last, Reaches registry code (some (start + (frame.locals.length + frame.slots.length + 2) +
        callee.instructions.length)) copy final last ∧
      Agree frame.draft.works ((use.composition subject ⟨function, arguments⟩).effect answer store).2
        last := by
  have bottom : start + ((frame.block subject callee arguments use).length - 1) =
      start + (frame.locals.length + frame.slots.length + 2) + callee.instructions.length := by
    simp [Frame.block, Frame.clear, Frame.bindings, inlined.fits.slots, inlined.arity]
    omega
  rw [bottom] at leads
  obtain ⟨_, _, _, copied⟩ := inlined.parts
  have tail : Holds code (start + (frame.locals.length + frame.slots.length + 2) +
      callee.instructions.length) [frame.tail subject use] := by
    have last := copied.holds.append.2
    rwa [List.length_map] at last
  cases use with
  | assign =>
      refine ⟨Function.update copy subject (copy frame.answer), ?_, ?_⟩
      · exact ((tail.moves 0 rfl rfl rfl leads).advances (.refl _ _)).reaches
      · rw [result]
        exact agree.update_both subject answer
  | compare target =>
      refine ⟨copy, ?_, agree⟩
      refine ((tail.moves 0 rfl rfl ?_ leads).advances (.refl _ _)).reaches
      change (Flow.jumpIf (copy subject = copy frame.answer) target, copy) =
        (Flow.jumpIf (store subject = answer) target, copy)
      rw [result, agree subject inlined.subject_visible]

/-- The block does what the composition does. -/
theorem runs (inlined : Inlined registry code start callee frame subject arguments use)
    {function : String} (found : registry[function]? = some callee) {answer : UInt64}
    (answered : (use.composition subject ⟨function, arguments⟩).Answered registry store answer)
    {final : Option Nat}
    (leads : Leads code (start + ((frame.block subject callee arguments use).length - 1))
      ((use.composition subject ⟨function, arguments⟩).effect answer store).1 final) :
    ∃ last, Advances registry code start store final last ∧
      Agree frame.draft.works ((use.composition subject ⟨function, arguments⟩).effect answer store).2
        last := by
  have answers : (Call.toArgument ⟨function, arguments⟩).Answers registry store answer :=
    answered ⟨function, arguments⟩ (by cases use <;> rfl)
  rw [Call.toArgument, Argument.Answers] at answers
  obtain ⟨known, inputs, present, _, evaluated, yields⟩ := answers
  rw [found] at present
  cases present
  obtain ⟨count, ended, halts, result⟩ := inlined.wellFormed.yields_iff.mp yields
  obtain ⟨_, _, _, copied⟩ := inlined.parts
  obtain ⟨entered, entry, mirrors, before⟩ := inlined.enter evaluated
  obtain ⟨copyLast, route, mirrored, during⟩ := copied.reaches_end halts mirrors
  have atResult : copyLast frame.answer = answer := by
    have mirror := mirrored .result (mem_knownVars.mpr (.inl rfl))
    rw [Frame.renameVar_result] at mirror
    exact mirror.trans result
  obtain ⟨last, ending, agree⟩ := inlined.finish atResult (before.trans during) leads
  exact ⟨last, entry.trans (route.trans ending), agree⟩

theorem answered_of_halts (inlined : Inlined registry code start callee frame subject arguments use)
    (distinct : (attached code).Nodup) {function : String} (found : registry[function]? = some callee)
    {count : Nat} {last : Store} (halts : Halts registry code count (some start) store last) :
    ∃ answer, (use.composition subject ⟨function, arguments⟩).Answered registry store answer := by
  obtain ⟨_, _, binding, copied⟩ := inlined.parts
  have lengths : frame.slots.length = arguments.length := inlined.fits.slots.trans inlined.arity
  obtain ⟨cleared, ⟨first, route⟩, _, agree⟩ := @prepare registry _ _ _ _ _ _ _ store inlined
  obtain ⟨_, _, prepared⟩ := halts.split distinct route
  obtain ⟨values, bound⟩ := binding.answersAll_of_halts distinct lengths inlined.slots_fresh prepared
  have evaluated := (inlined.answersAll_cleared agree).mp bound
  obtain ⟨entered, ⟨second, entry⟩, mirrors, _⟩ := inlined.enter evaluated
  obtain ⟨_, _, running⟩ := halts.split distinct entry
  obtain ⟨steps, ended, stops⟩ := copied.halts_of_halts distinct mirrors
    (show Halts registry code _ (some (_ + 0)) entered last from running)
  have yields := inlined.wellFormed.yields_iff.mpr ⟨steps, ended, stops, rfl⟩
  refine ⟨ended .result, ?_⟩
  intro call calls
  have same : call = ⟨function, arguments⟩ := by
    cases use <;> exact (Option.some.inj calls).symm
  rw [same, Call.toArgument, Argument.Answers]
  exact ⟨callee, values, found, inlined.arity, evaluated, yields⟩

end Inlined

end CounterMachine
