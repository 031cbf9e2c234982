import CounterMachine.Proofs.Drawing
import Mathlib.Order.Bounds.Defs
set_option autoImplicit false

/-!
# Names from supplies

A supply has one generator for labels and one for work variables. Asked for a name, a generator counts on to
the least index after its last one whose name is free, and it finds one if and only if there is one. It leaves
the other generator alone. Names that are given out in any order are therefore new and distinct, also if other
names become taken meanwhile.
-/

namespace CounterMachine

/-! ## Searches with a bound -/

namespace Names

/-- No free index means that all later indices are taken, unless the tries ran out among taken ones. -/
theorem nextFree?_none {taken : UInt32 → Bool} {tries : Nat} {last : UInt32}
    (none : nextFree? taken tries last = none) :
    (∀ index, last < index → taken index = true) ∨
      (last.toNat + tries < UInt32.size ∧
        ∀ index, last < index → index.toNat ≤ last.toNat + tries → taken index = true) := by
  induction tries generalizing last with
  | zero =>
      right
      refine ⟨last.toNat_lt_size, ?_⟩
      intro index above within
      rw [UInt32.lt_iff_toNat_lt] at above
      omega
  | succ tries ih =>
      rw [nextFree?] at none
      by_cases room : last.toNat + 1 < UInt32.size
      · rw [if_pos room] at none
        have step := toNat_next room
        cases occupied : taken (last + 1) with
        | false =>
            rw [occupied] at none
            cases none
        | true =>
            rw [occupied, if_pos rfl] at none
            rcases ih none with all | ⟨bound, some⟩
            · left
              intro index above
              rcases eq_next_or_after room above with rfl | later
              · exact occupied
              · exact all index later
            · right
              refine ⟨by omega, ?_⟩
              intro index above within
              rcases eq_next_or_after room above with rfl | later
              · exact occupied
              · exact some index later (by omega)
      · left
        intro index above
        rw [UInt32.lt_iff_toNat_lt] at above
        have bound := index.toNat_lt_size
        omega

variable {α : Type} [Ord α] [Std.TransOrd α] [Std.LawfulEqOrd α]

theorem length_le_size {set : Std.ExtTreeSet α} {members : List α} (distinct : members.Nodup)
    (included : ∀ member ∈ members, member ∈ set) : members.length ≤ set.size := by
  rw [← Std.ExtTreeSet.length_toList]
  refine (distinct.subperm ?_).length_le
  intro member inMembers
  exact Std.ExtTreeSet.mem_toList.mpr (included member inMembers)

theorem taken_of_nextFree?_none {name : UInt32 → α} (injective : Function.Injective name)
    {set : Std.ExtTreeSet α} {last : UInt32}
    (none : nextFree? (fun index => set.contains (name index)) (set.size + 1) last = none) :
    ∀ index, last < index → name index ∈ set := by
  rcases nextFree?_none none with all | ⟨bound, some⟩
  · intro index above
    exact Std.ExtTreeSet.contains_iff_mem.mp (all index above)
  · let members := (List.range (set.size + 1)).map fun offset =>
      name (UInt32.ofNat (last.toNat + 1 + offset))
    have value : ∀ {offset}, offset < set.size + 1 →
        (UInt32.ofNat (last.toNat + 1 + offset)).toNat = last.toNat + 1 + offset := by
      intro offset small
      exact UInt32.toNat_ofNat_of_lt' (by omega)
    have distinct : members.Nodup := by
      refine List.Nodup.map_on ?_ List.nodup_range
      intro left inLeft right inRight same
      have equal := congrArg UInt32.toNat (injective same)
      rw [value (List.mem_range.mp inLeft), value (List.mem_range.mp inRight)] at equal
      omega
    have included : ∀ member ∈ members, member ∈ set := by
      intro member inMembers
      obtain ⟨offset, inRange, rfl⟩ := List.mem_map.mp inMembers
      have small := List.mem_range.mp inRange
      refine Std.ExtTreeSet.contains_iff_mem.mp (some _ ?_ ?_)
      · rw [UInt32.lt_iff_toNat_lt, value small]
        omega
      · rw [value small]
        omega
    have long := length_le_size distinct included
    rw [List.length_map, List.length_range] at long
    exact (Nat.not_succ_le_self _ long).elim

end Names

/-! ## Counting on -/

namespace Names

variable {taken : UInt32 → Bool} {last index : UInt32}

theorem countOn_least (found : countOn taken last = some index) :
    IsLeast { index | last < index ∧ taken index = false } index := by
  fun_induction countOn taken last with
  | case1 last room occupied ih =>
      obtain ⟨⟨after, free⟩, least⟩ := ih found
      refine ⟨⟨UInt32.lt_trans (lt_next room) after, free⟩, fun other ⟨later, otherFree⟩ => ?_⟩
      rcases eq_next_or_after room later with rfl | beyond
      · rw [occupied] at otherFree
        cases otherFree
      · exact least ⟨beyond, otherFree⟩
  | case2 last room free =>
      cases found
      refine ⟨⟨lt_next room, by simpa using free⟩, fun other ⟨later, _⟩ => ?_⟩
      rcases eq_next_or_after room later with rfl | beyond
      · exact UInt32.le_refl _
      · exact UInt32.le_of_lt beyond
  | case3 last ended => cases found

theorem countOn_eq_none (none : countOn taken last = none) (after : last < index) : taken index = true := by
  fun_induction countOn taken last with
  | case1 last room occupied ih =>
      rcases eq_next_or_after room after with rfl | beyond
      · exact occupied
      · exact ih none beyond
  | case2 last room free => cases none
  | case3 last ended =>
      have bound := index.toNat_lt_size
      rw [UInt32.lt_iff_toNat_lt] at after
      omega

/-- Counting on past the names of a set comes to the least free index, or there is none. -/
theorem countOn_cases {α : Type} [Ord α] [Std.TransOrd α] (set : Std.ExtTreeSet α) (name : UInt32 → α)
    (last : UInt32) :
    (∃ index, IsLeast { index | last < index ∧ name index ∉ set } index ∧
      countOn (fun index => set.contains (name index)) last = some index) ∨
    { index | last < index ∧ name index ∉ set } = ∅ ∧
      countOn (fun index => set.contains (name index)) last = none := by
  cases counted : countOn (fun index => set.contains (name index)) last with
  | none =>
      refine .inr ⟨Set.eq_empty_of_forall_notMem fun index ⟨after, free⟩ => free ?_, rfl⟩
      exact Std.ExtTreeSet.contains_iff_mem.mp (countOn_eq_none counted after)
  | some index =>
      refine .inl ⟨index, ?_, rfl⟩
      simpa only [← Std.ExtTreeSet.contains_iff_mem, Bool.not_eq_true] using countOn_least counted

/-- A search that is bounded by the number of taken names finds what the unbounded search finds. -/
theorem countOn_eq_nextFree? {α : Type} [Ord α] [Std.TransOrd α] [Std.LawfulEqOrd α] {name : UInt32 → α}
    (injective : Function.Injective name) (set : Std.ExtTreeSet α) (last : UInt32) :
    countOn (fun index => set.contains (name index)) last =
      nextFree? (fun index => set.contains (name index)) (set.size + 1) last := by
  cases found : nextFree? (fun index => set.contains (name index)) (set.size + 1) last with
  | none =>
      cases counted : countOn (fun index => set.contains (name index)) last with
      | none => rfl
      | some index =>
          obtain ⟨⟨after, free⟩, _⟩ := countOn_least counted
          have occupied := Std.ExtTreeSet.contains_iff_mem.mpr
            (taken_of_nextFree?_none injective found index after)
          cases occupied.symm.trans free
  | some index =>
      obtain ⟨after, between⟩ := nextFree?_least found
      cases counted : countOn (fun index => set.contains (name index)) last with
      | none => cases (countOn_eq_none counted after).symm.trans (nextFree?_free found)
      | some other =>
          obtain ⟨⟨otherAfter, otherFree⟩, least⟩ := countOn_least counted
          refine congrArg some (UInt32.le_antisymm (least ⟨after, nextFree?_free found⟩) ?_)
          refine UInt32.not_lt.mp fun earlier => ?_
          cases (between other otherAfter earlier).symm.trans otherFree

theorem drawLabel_eq (names : Names) (taken : LabelSet) :
    names.drawLabel taken = names.freshLabel? taken := by
  rw [drawLabel, freshLabel?, countOn_eq_nextFree? (fun _ _ => Label.named.inj)]

theorem drawWork_eq (names : Names) (taken : VariableSet) :
    names.drawWork taken = names.freshWork? taken := by
  rw [drawWork, freshWork?, countOn_eq_nextFree? (fun _ _ => Variable.work.inj)]

end Names

/-! ## Generators -/

/-- What a supply gives out. -/
inductive Generator where
  | label
  | work
deriving DecidableEq

namespace Generator

/-- The name with an index. -/
def name : Generator → UInt32 → Name
  | label, index => .label (.named index)
  | work, index => .var (.work index)

/-- The index that the generator has come to. -/
def last (names : Names) : Generator → UInt32
  | label => names.label
  | work => names.work

/-- The supply after the generator has come to an index and its name is taken. -/
def give (supply : Supply) (index : UInt32) : Generator → Supply
  | label =>
      { supply with
        names := { supply.names with label := index }
        labels := supply.labels.insert (.named index) }
  | work =>
      { supply with
        names := { supply.names with work := index }
        vars := supply.vars.insert (.work index) }

/-- Asks for a name. -/
def draw (supply : Supply) : Generator → Option (Name × Supply)
  | label => (supply.names.drawLabel supply.labels).map
      fun (given, names, labels) => (.label given, { supply with names, labels })
  | work => (supply.names.drawWork supply.vars).map
      fun (given, names, vars) => (.var given, { supply with names, vars })

/-- The computation that draws a name during an expansion. -/
def fresh : Generator → Fresh Name
  | label => Name.label <$> Fresh.label
  | work => Name.var <$> Fresh.work

/-- The indices above the last one whose names are free. -/
def free (generator : Generator) (supply : Supply) : Set UInt32 :=
  { index | generator.last supply.names < index ∧ generator.name index ∉ supply.taken }

variable {generator : Generator} {supply : Supply}

/-- A generator counts on to the least free index, and it comes to no end if there is one. -/
theorem draw_cases (generator : Generator) (supply : Supply) :
    (∃ index, IsLeast (generator.free supply) index ∧
      generator.draw supply = some (generator.name index, generator.give supply index)) ∨
    generator.free supply = ∅ ∧ generator.draw supply = none := by
  cases generator with
  | label =>
      rw [draw, Names.drawLabel, Option.map_map]
      rcases Names.countOn_cases supply.labels Label.named supply.names.label with
        ⟨index, least, found⟩ | ⟨none, ended⟩
      · exact .inl ⟨index, least, by rw [found]; rfl⟩
      · exact .inr ⟨none, by rw [ended]; rfl⟩
  | work =>
      rw [draw, Names.drawWork, Option.map_map]
      rcases Names.countOn_cases supply.vars Variable.work supply.names.work with
        ⟨index, least, found⟩ | ⟨none, ended⟩
      · exact .inl ⟨index, least, by rw [found]; rfl⟩
      · exact .inr ⟨none, by rw [ended]; rfl⟩

theorem mem_taken_give {index : UInt32} {name : Name} :
    name ∈ (generator.give supply index).taken ↔ generator.name index = name ∨ name ∈ supply.taken := by
  cases generator <;> cases name <;> simp [give, Generator.name, Std.LawfulEqCmp.compare_eq_iff_eq]

/-- Drawing a name during an expansion is asking for it; the expansion fails where no name is free. -/
theorem fresh_eq (generator : Generator) (supply : Supply) :
    generator.fresh supply = match generator.draw supply with
      | some given => .ok given
      | none => .error .namesExhausted := by
  cases generator with
  | label =>
      rw [draw, Names.drawLabel_eq]
      change (Fresh.label supply).map _ = _
      rw [Fresh.label]
      cases supply.names.freshLabel? supply.labels <;> rfl
  | work =>
      rw [draw, Names.drawWork_eq]
      change (Fresh.work supply).map _ = _
      rw [Fresh.work]
      cases supply.names.freshWork? supply.vars <;> rfl

end Generator

/-! ## Names in a row -/

namespace Supply

/-- What happens to a supply: other names become taken, or a generator is asked for a name. -/
inductive Event where
  | take (labels : List Label) (vars : List Variable)
  | ask (generator : Generator)

/-- A generator that is asked for a name: the supply it finds, and what it comes to. -/
structure Request where
  generator : Generator
  before : Supply
  result : Option (Name × Supply)

/-- Names become taken that were not drawn. -/
def take (supply : Supply) (labels : List Label) (vars : List Variable) : Supply :=
  { supply with labels := supply.labels.insertMany labels, vars := supply.vars.insertMany vars }

/-- The requests in a row of events, each with the supply that the earlier events have left. A request that
finds no name is the last one. -/
def requests : Supply → List Event → List Request
  | _, [] => []
  | supply, .take labels vars :: rest => (supply.take labels vars).requests rest
  | supply, .ask generator :: rest =>
      ⟨generator, supply, generator.draw supply⟩ ::
        match generator.draw supply with
        | some (_, next) => next.requests rest
        | none => []

/-- The names that are given out in a row of events. -/
def given (supply : Supply) (events : List Event) : List Name :=
  (supply.requests events).filterMap fun request => request.result.map Prod.fst

theorem taken_subset_take (supply : Supply) (labels : List Label) (vars : List Variable) :
    supply.taken ⊆ (supply.take labels vars).taken := by
  intro name taken
  cases name with
  | label label => exact Std.ExtTreeSet.mem_insertMany_list.mpr (.inl taken)
  | var name => exact Std.ExtTreeSet.mem_insertMany_list.mpr (.inl taken)

/-- Every request in a row of events is what its generator draws from the supply it finds. -/
theorem result_of_mem_requests {supply : Supply} {events : List Event} {request : Request}
    (member : request ∈ supply.requests events) :
    request.result = request.generator.draw request.before := by
  induction events generalizing supply with
  | nil => cases member
  | cons event rest ih =>
      cases event with
      | take labels vars => exact ih member
      | ask generator =>
          rcases List.mem_cons.mp member with rfl | later
          · rfl
          · cases drawn : generator.draw supply with
            | none =>
                rw [drawn] at later
                cases later
            | some given =>
                rw [drawn] at later
                exact ih later

/-- Names that are given out were not taken at the start, and no two of them are equal. -/
theorem given_new (supply : Supply) (events : List Event) :
    (∀ name ∈ supply.given events, name ∉ supply.taken) ∧ (supply.given events).Nodup := by
  induction events generalizing supply with
  | nil => simp [given, requests]
  | cons event rest ih =>
      cases event with
      | take labels vars =>
          obtain ⟨new, distinct⟩ := ih (supply.take labels vars)
          exact ⟨fun name member taken => new name member (taken_subset_take supply labels vars taken), distinct⟩
      | ask generator =>
          rcases generator.draw_cases supply with ⟨index, ⟨⟨_, free⟩, _⟩, drawn⟩ | ⟨_, drawn⟩
          · have given : supply.given (.ask generator :: rest) =
                generator.name index :: (generator.give supply index).given rest := by
              simp [Supply.given, requests, drawn]
            obtain ⟨new, distinct⟩ := ih (generator.give supply index)
            -- A name that is given out later is neither the first one nor taken before.
            have later (name : Name) (member : name ∈ (generator.give supply index).given rest) :
                generator.name index ≠ name ∧ name ∉ supply.taken := by
              simpa only [Generator.mem_taken_give, not_or] using new name member
            rw [given, List.forall_mem_cons, List.nodup_cons]
            exact ⟨⟨free, fun name member => (later name member).2⟩, fun again => (later _ again).1 rfl,
              distinct⟩
          · simp [given, requests, drawn]

/-- Whatever names become taken between the requests, every request gives out the least free index after the
last one, as an expansion does, and takes that name alone; it fails if and only if no index is free. The names
that are given out are new and distinct. -/
theorem requests_exact (supply : Supply) (events : List Event) :
    (∀ request ∈ supply.requests events,
      (request.result.isSome ↔ (request.generator.free request.before).Nonempty) ∧
      (∀ name after, request.result = some (name, after) → name ∉ request.before.taken ∧
        ∃ index, IsLeast (request.generator.free request.before) index ∧
          name = request.generator.name index ∧
          after = request.generator.give request.before index) ∧
      request.generator.fresh request.before = match request.result with
        | some given => .ok given
        | none => .error .namesExhausted) ∧
    (∀ name ∈ supply.given events, name ∉ supply.taken) ∧ (supply.given events).Nodup := by
  refine ⟨fun request member => ?_, given_new supply events⟩
  rw [result_of_mem_requests member]
  refine ⟨?_, ?_, request.generator.fresh_eq request.before⟩
  · rcases request.generator.draw_cases request.before with ⟨index, least, found⟩ | ⟨none, ended⟩
    · simp [found, Set.nonempty_of_mem least.1]
    · simp [none, ended]
  · intro name after found
    rcases request.generator.draw_cases request.before with ⟨index, least, drawn⟩ | ⟨_, ended⟩
    · cases found.symm.trans drawn
      exact ⟨least.1.2, index, least, rfl, rfl⟩
    · cases found.symm.trans ended

end Supply

end CounterMachine
