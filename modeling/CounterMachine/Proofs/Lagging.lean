import CounterMachine.Proofs.Confluence
import CounterMachine.Proofs.Exhaustion
set_option autoImplicit false

/-!
# Supplies that lag behind

Two computations may draw names from two supplies, side by side. A supply is behind another if it has come to
no later index and takes nothing beyond the other that the other does not take. Whatever can be drawn from
the supply that is ahead can then be drawn from the other one too, and it stays behind, also while the first
draws further names alone. One round of an operation keeps pace with one round of the permuted operation.
-/

namespace CounterMachine

open Inlining

/-! ## Indices -/

namespace Names

variable {α : Type} [Ord α] [Std.TransOrd α] {name : UInt32 → α} {last later index : UInt32}
  {taken others : Std.ExtTreeSet α}

/-- A last index is not above another, and what is taken beyond the other is taken there too. -/
structure Lags (name : UInt32 → α) (last later : UInt32) (taken others : Std.ExtTreeSet α) : Prop where
  last : last ≤ later
  taken : ∀ index, later < index → name index ∈ taken → name index ∈ others

theorem Lags.ahead (lags : Lags name last later taken others)
    (found : nextFree? (fun index => others.contains (name index)) (others.size + 1) later = some index) :
    Lags name last index taken (others.insert (name index)) := by
  have above := (nextFree?_least found).1
  refine ⟨UInt32.le_trans lags.last (UInt32.le_of_lt above), fun other beyond inTaken => ?_⟩
  exact Std.ExtTreeSet.mem_insert.mpr (.inr (lags.taken other (UInt32.lt_trans above beyond) inTaken))

/-- The index that is found ahead is free for the one behind, which therefore finds one that is not later. -/
theorem Lags.both [Std.LawfulEqOrd α] (lags : Lags name last later taken others)
    (injective : Function.Injective name)
    (found : nextFree? (fun index => others.contains (name index)) (others.size + 1) later = some index) :
    ∃ earlier,
      nextFree? (fun index => taken.contains (name index)) (taken.size + 1) last = some earlier ∧
      Lags name earlier index (taken.insert (name earlier)) (others.insert (name index)) := by
  have above := (nextFree?_least found).1
  have free : name index ∉ taken := by
    intro inTaken
    have occupied := Std.ExtTreeSet.contains_iff_mem.mpr (lags.taken index above inTaken)
    rw [nextFree?_free found] at occupied
    cases occupied
  have reach : last < index := UInt32.lt_of_le_of_lt lags.last above
  cases drawn : nextFree? (fun index => taken.contains (name index)) (taken.size + 1) last with
  | none => exact (free (taken_of_nextFree?_none injective drawn index reach)).elim
  | some earlier =>
      have notLater : earlier ≤ index := by
        refine UInt32.not_lt.mp fun past => free ?_
        exact Std.ExtTreeSet.contains_iff_mem.mp ((nextFree?_least drawn).2 index reach past)
      refine ⟨earlier, rfl, notLater, fun other beyond inTaken => ?_⟩
      rw [Std.ExtTreeSet.mem_insert, Std.LawfulEqCmp.compare_eq_iff_eq] at inTaken
      rcases inTaken with same | inTaken
      · obtain rfl := injective same
        exact (UInt32.not_lt.mpr notLater beyond).elim
      · exact Std.ExtTreeSet.mem_insert.mpr (.inr (lags.taken other (UInt32.lt_trans above beyond) inTaken))

end Names

/-- A supply lags behind another, with its labels and with its work variables. -/
structure Supply.Behind (behind ahead : Supply) : Prop where
  labels : Names.Lags .named behind.names.label ahead.names.label behind.labels ahead.labels
  works : Names.Lags .work behind.names.work ahead.names.work behind.vars ahead.vars

theorem Supply.Behind.refl (supply : Supply) : supply.Behind supply where
  labels := ⟨UInt32.le_refl _, fun _ _ taken => taken⟩
  works := ⟨UInt32.le_refl _, fun _ _ taken => taken⟩

/-! ## Computations -/

namespace Fresh

variable {α β γ δ : Type}

/-- A computation leaves behind the supplies that were behind. -/
structure StaysAhead {α : Type} (computation : Fresh α) : Prop where
  run : ∀ {supply other value next}, Supply.Behind other supply → computation supply = .ok (value, next) →
    other.Behind next

namespace StaysAhead

theorem pure (value : α) : StaysAhead (Pure.pure value) := by
  refine ⟨fun behind returned => ?_⟩
  obtain ⟨_, rfl⟩ := pure_ok returned
  exact behind

theorem bind {first : Fresh α} {second : α → Fresh β} (stays : StaysAhead first)
    (later : ∀ value, StaysAhead (second value)) : StaysAhead (first >>= second) := by
  refine ⟨fun behind returned => ?_⟩
  obtain ⟨result, middle, ran, returned⟩ := bind_ok returned
  exact (later result).run (stays.run behind ran) returned

theorem composed : Composed fun {α} _ => @StaysAhead α where
  pure := pure
  bind := bind
  label := by
    refine ⟨fun behind returned => ?_⟩
    obtain ⟨index, found, _, rfl⟩ := label_eq_ok.mp returned
    exact ⟨behind.labels.ahead found, behind.works⟩
  work := by
    refine ⟨fun behind returned => ?_⟩
    obtain ⟨index, found, _, rfl⟩ := work_eq_ok.mp returned
    exact ⟨behind.labels, behind.works.ahead found⟩

end StaysAhead

/-- A computation succeeds from a supply that is behind, if another succeeds from the supply ahead. The
supplies that they leave are again one behind the other. -/
structure Follows (follower : Fresh β) (leader : Fresh α) : Prop where
  run : ∀ {supply other value next}, Supply.Behind other supply → leader supply = .ok (value, next) →
    ∃ result last, follower other = .ok (result, last) ∧ last.Behind next

namespace Follows

theorem pure (value : α) (result : β) : Follows (Pure.pure result) (Pure.pure value) := by
  refine ⟨fun behind returned => ?_⟩
  obtain ⟨_, rfl⟩ := pure_ok returned
  exact ⟨result, _, rfl, behind⟩

theorem bind {leader : Fresh α} {follower : Fresh β} {second : α → Fresh γ} {other : β → Fresh δ}
    (first : Follows follower leader) (later : ∀ value result, Follows (other result) (second value)) :
    Follows (follower >>= other) (leader >>= second) := by
  refine ⟨fun behind ran => ?_⟩
  obtain ⟨value, middle, leads, ran⟩ := bind_ok ran
  obtain ⟨result, between, follows, stillBehind⟩ := first.run behind leads
  rw [bind_of_ok follows]
  exact (later value result).run stillBehind ran

theorem label : Follows Fresh.label Fresh.label := by
  refine ⟨fun behind returned => ?_⟩
  obtain ⟨index, found, _, rfl⟩ := label_eq_ok.mp returned
  obtain ⟨earlier, free, lags⟩ := behind.labels.both (fun _ _ => Label.named.inj) found
  exact ⟨_, _, label_eq_ok.mpr ⟨earlier, free, rfl, rfl⟩, lags, behind.works⟩

theorem work : Follows Fresh.work Fresh.work := by
  refine ⟨fun behind returned => ?_⟩
  obtain ⟨index, found, _, rfl⟩ := work_eq_ok.mp returned
  obtain ⟨earlier, free, lags⟩ := behind.works.both (fun _ _ => Variable.work.inj) found
  exact ⟨_, _, work_eq_ok.mpr ⟨earlier, free, rfl, rfl⟩, behind.labels, lags⟩

theorem replicate {draw : Fresh α} (one : Follows draw draw) (members : List β) :
    Follows (members.mapM fun _ => draw) (members.mapM fun _ => draw) := by
  induction members with
  | nil =>
      rw [List.mapM_nil]
      exact pure [] []
  | cons member rest ih =>
      rw [List.mapM_cons]
      exact one.bind fun _ _ => ih.bind fun _ _ => pure _ _

theorem draw (callee : Routine) : Follows (Frame.draw callee) (Frame.draw callee) := by
  unfold Frame.draw
  refine work.bind fun _ _ => ?_
  refine (work.replicate _).bind fun _ _ => ?_
  refine (work.replicate _).bind fun _ _ => ?_
  refine (label.replicate _).bind fun _ _ => ?_
  split
  · exact label.bind fun _ _ => pure _ _
  · exact pure _ _

theorem inline (registry : Registry) (rename : Variable → Variable) (call : Call) (left right : Variable)
    (use other : Use) :
    Follows (inline registry left (call.mapVars rename) other) (inline registry right call use) := by
  have arity : (call.mapVars rename).arguments.length = call.arguments.length :=
    Argument.length_mapVarsAll _ _
  unfold Inlining.inline
  rw [arity]
  simp only [Call.mapVars]
  split
  · refine ⟨fun _ failed => ?_⟩
    cases failed
  · split
    · exact (draw _).bind fun _ _ => pure _ _
    · refine ⟨fun _ failed => ?_⟩
      cases failed

/-- One round draws as many names for an operation with other names. -/
theorem expansion (registry : Registry) (permutation : Permutation) (operation : Operation) :
    Follows ((permutation.operation operation).expansion registry) (operation.expansion registry) := by
  cases operation with
  | increase | decrease | jumpNotZero | neutral => exact pure _ _
  | zeroVariable | constantAssignment =>
      exact label.bind fun _ _ => label.bind fun _ _ => work.bind fun _ _ => pure _ _
  | gotoLabel target => exact work.bind fun _ _ => pure _ _
  | assignment subject source =>
      have same : permutation.vars subject = permutation.vars source ↔ subject = source :=
        permutation.vars.apply_eq_iff_eq
      simp only [Permutation.operation, Operation.mapVars, Operation.mapTarget, Operation.expansion,
        Rules.copy, same]
      split
      · exact pure _ _
      · exact label.bind fun _ _ => label.bind fun _ _ => label.bind fun _ _ => work.bind fun _ _ => pure _ _
  | jumpZero subject target => exact label.bind fun _ _ => pure _ _
  | jumpEqualConstant subject value target =>
      exact label.bind fun _ _ => work.bind fun _ _ => pure _ _
  | jumpEqualVariable subject other target =>
      exact label.bind fun _ _ => label.bind fun _ _ => label.bind fun _ _ => work.bind fun _ _ =>
        work.bind fun _ _ => pure _ _
  | quote subject call => exact inline registry _ call _ _ .assign .assign
  | jumpEqualFunction subject call target =>
      exact inline registry _ call _ _ (.compare target) (.compare (permutation.labels target))

end Follows

end Fresh

variable {registry : Registry}

theorem Operation.expansion_staysAhead (operation : Operation) :
    Fresh.StaysAhead (operation.expansion registry) := by
  refine ⟨fun behind expanded => ?_⟩
  refine (Fresh.StaysAhead.composed.expansion fun call calls => ?_).run behind expanded
  have synthetic : operation.kind.isBasic = false := by
    cases operation with
    | quote | jumpEqualFunction => rfl
    | _ => cases calls
  obtain ⟨draft, stands, _⟩ := expansion_ok synthetic expanded
  exact stands.callee calls

theorem Instruction.derive_staysAhead (rounds : Nat) (instruction : Instruction) :
    Fresh.StaysAhead (instruction.derive registry rounds) := by
  induction rounds generalizing instruction with
  | zero => exact .pure _
  | succ rounds ih =>
      rw [Instruction.derive]
      split
      · exact .pure _
      · refine instruction.operation.expansion_staysAhead.bind fun _ => ?_
        refine Fresh.StaysAhead.bind ?_ fun _ => .pure _
        exact Fresh.StaysAhead.composed.mapM (fun _ => 0) fun child _ => ih child

end CounterMachine
