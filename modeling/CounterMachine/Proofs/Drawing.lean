import CounterMachine.Machine.Names
import CounterMachine.Proofs.Names
import Mathlib.Data.List.Nodup
import Mathlib.Data.List.Perm.Subperm
set_option autoImplicit false

/-!
# Names that are drawn

A computation that draws names takes them from a supply: they are distinct labels and work variables that
were not taken, and exactly they are taken afterwards. Drawing fails only at the end of the supply.
-/

namespace CounterMachine

/-- The names that a supply does not give out. -/
def Supply.taken (supply : Supply) : Set Name :=
  { name | match name with
    | .label label => label ∈ supply.labels
    | .var name => name ∈ supply.vars }

@[simp] theorem Supply.label_mem_taken {supply : Supply} {label : Label} :
    .label label ∈ supply.taken ↔ label ∈ supply.labels :=
  Iff.rfl

@[simp] theorem Supply.var_mem_taken {supply : Supply} {name : Variable} :
    .var name ∈ supply.taken ↔ name ∈ supply.vars :=
  Iff.rfl

/-- Labels and work variables that were drawn together. -/
structure Draft where
  labels : List Label := []
  works : List Variable := []

namespace Draft

/-- The drawn names. -/
def names (draft : Draft) : List Name :=
  draft.labels.map .label ++ draft.works.map .var

@[simp] theorem label_mem_names {draft : Draft} {label : Label} :
    .label label ∈ draft.names ↔ label ∈ draft.labels := by
  simp [names]

@[simp] theorem var_mem_names {draft : Draft} {name : Variable} :
    .var name ∈ draft.names ↔ name ∈ draft.works := by
  simp [names]

/-- Names that were drawn one after the other. -/
def append (first second : Draft) : Draft :=
  ⟨first.labels ++ second.labels, first.works ++ second.works⟩

@[simp] theorem mem_names_append {first second : Draft} {name : Name} :
    name ∈ (first.append second).names ↔ name ∈ first.names ∨ name ∈ second.names := by
  cases name <;> simp [append]

/-- The names are named labels and work variables, they are distinct, and none of them is in use. -/
structure Avoids (draft : Draft) (used : Set Name) : Prop where
  named : ∀ label ∈ draft.labels, label.isNamed = true
  work : ∀ name ∈ draft.works, name.isWork = true
  labels : draft.labels.Nodup
  works : draft.works.Nodup
  unused : ∀ name ∈ draft.names, name ∉ used

theorem Avoids.nothing (used : Set Name) : ({} : Draft).Avoids used := by
  constructor <;> simp [names]

theorem Avoids.mono {draft : Draft} {used fewer : Set Name} (avoids : draft.Avoids used)
    (included : ∀ name ∈ draft.names, name ∈ fewer → name ∈ used) : draft.Avoids fewer :=
  { avoids with
    unused := fun name drawn inFewer => avoids.unused name drawn (included name drawn inFewer) }

theorem Avoids.append {first second : Draft} {used : Set Name} (before : first.Avoids used)
    (after : second.Avoids (used ∪ { name | name ∈ first.names })) :
    (first.append second).Avoids used := by
  have later : ∀ name ∈ second.names, name ∉ first.names := by
    intro name drawn earlier
    exact after.unused name drawn (.inr earlier)
  constructor
  · intro label member
    rcases List.mem_append.mp member with member | member
    · exact before.named label member
    · exact after.named label member
  · intro name member
    rcases List.mem_append.mp member with member | member
    · exact before.work name member
    · exact after.work name member
  · refine before.labels.append after.labels ?_
    intro label inFirst inSecond
    exact later (.label label) (by simpa using inSecond) (by simpa using inFirst)
  · refine before.works.append after.works ?_
    intro name inFirst inSecond
    exact later (.var name) (by simpa using inSecond) (by simpa using inFirst)
  · intro name drawn inUse
    rcases mem_names_append.mp drawn with drawn | drawn
    · exact before.unused name drawn inUse
    · exact after.unused name drawn (.inl inUse)

theorem Avoids.split {first second : Draft} {used : Set Name}
    (avoids : (first.append second).Avoids used) :
    first.Avoids used ∧ second.Avoids (used ∪ { name | name ∈ first.names }) := by
  obtain ⟨firstLabels, secondLabels, labelsApart⟩ := List.nodup_append.mp avoids.labels
  obtain ⟨firstWorks, secondWorks, worksApart⟩ := List.nodup_append.mp avoids.works
  constructor
  · exact {
      named := fun label member => avoids.named label (List.mem_append_left _ member)
      work := fun name member => avoids.work name (List.mem_append_left _ member)
      labels := firstLabels
      works := firstWorks
      unused := fun name drawn => avoids.unused name (mem_names_append.mpr (.inl drawn)) }
  · refine {
      named := fun label member => avoids.named label (List.mem_append_right _ member)
      work := fun name member => avoids.work name (List.mem_append_right _ member)
      labels := secondLabels
      works := secondWorks
      unused := ?_ }
    intro name drawn taken
    rcases taken with inUse | earlier
    · exact avoids.unused name (mem_names_append.mpr (.inr drawn)) inUse
    · cases name with
      | label label =>
          exact labelsApart label (label_mem_names.mp earlier) label (label_mem_names.mp drawn) rfl
      | var name => exact worksApart name (var_mem_names.mp earlier) name (var_mem_names.mp drawn) rfl

/-- Some of the names of a draft, in any order. -/
structure Within (part whole : Draft) : Prop where
  labels : part.labels.Subperm whole.labels
  works : part.works.Subperm whole.works

theorem Within.refl (draft : Draft) : draft.Within draft :=
  ⟨.refl _, .refl _⟩

theorem Within.trans {part middle whole : Draft} (first : part.Within middle)
    (second : middle.Within whole) : part.Within whole :=
  ⟨first.labels.trans second.labels, first.works.trans second.works⟩

theorem append_assoc (first second third : Draft) :
    (first.append second).append third = first.append (second.append third) := by
  simp [append]

theorem within_append_right (first second : Draft) : second.Within (first.append second) :=
  ⟨(List.sublist_append_right _ _).subperm, (List.sublist_append_right _ _).subperm⟩

theorem within_append_left_comm (first second third : Draft) :
    (first.append (second.append third)).Within (second.append (first.append third)) := by
  constructor
  · exact (List.perm_append_comm_assoc _ _ _).subperm
  · exact (List.perm_append_comm_assoc _ _ _).subperm

theorem Within.append {part whole other larger : Draft} (first : part.Within whole)
    (second : other.Within larger) : (part.append other).Within (whole.append larger) :=
  ⟨first.labels.append second.labels, first.works.append second.works⟩

theorem Avoids.within {part whole : Draft} {used : Set Name} (avoids : whole.Avoids used)
    (within : part.Within whole) : part.Avoids used where
  named := fun label member => avoids.named label (within.labels.subset member)
  work := fun name member => avoids.work name (within.works.subset member)
  labels := by
    obtain ⟨chosen, same, sublist⟩ := within.labels
    exact same.nodup_iff.mp (avoids.labels.sublist sublist)
  works := by
    obtain ⟨chosen, same, sublist⟩ := within.works
    exact same.nodup_iff.mp (avoids.works.sublist sublist)
  unused := by
    intro name drawn
    apply avoids.unused
    cases name with
    | label label => exact label_mem_names.mpr (within.labels.subset (label_mem_names.mp drawn))
    | var name => exact var_mem_names.mpr (within.works.subset (var_mem_names.mp drawn))

end Draft

/-- Drawing some names leads from a supply to the next. -/
structure Supply.Draws (supply : Supply) (draft : Draft) (next : Supply) : Prop where
  avoids : draft.Avoids supply.taken
  taken : next.taken = supply.taken ∪ { name | name ∈ draft.names }

namespace Supply.Draws

theorem nothing (supply : Supply) : supply.Draws {} supply where
  avoids := .nothing supply.taken
  taken := by simp [Draft.names]

theorem trans {supply middle next : Supply} {first second : Draft}
    (before : supply.Draws first middle) (after : middle.Draws second next) :
    supply.Draws (first.append second) next where
  avoids := before.avoids.append (before.taken ▸ after.avoids)
  taken := by
    ext name
    simp only [after.taken, before.taken, Set.mem_union, Set.mem_ofPred_eq, Draft.mem_names_append,
      or_assoc]

theorem taken_subset {supply next : Supply} {draft : Draft} (draws : supply.Draws draft next) :
    supply.taken ⊆ next.taken := by
  rw [draws.taken]
  exact Set.subset_union_left

end Supply.Draws

namespace Names

theorem nextFree?_free {taken : UInt32 → Bool} {tries : Nat} {last index : UInt32}
    (found : nextFree? taken tries last = some index) : taken index = false := by
  induction tries generalizing last with
  | zero => cases found
  | succ tries ih =>
      simp only [nextFree?] at found
      split at found
      · cases occupied : taken (last + 1) with
        | true =>
            rw [occupied] at found
            exact ih found
        | false =>
            rw [occupied] at found
            cases found
            exact occupied
      · cases found

theorem toNat_next {last : UInt32} (room : last.toNat + 1 < UInt32.size) : (last + 1).toNat = last.toNat + 1 := by
  rw [UInt32.toNat_add]
  exact Nat.mod_eq_of_lt room

theorem lt_next {last : UInt32} (room : last.toNat + 1 < UInt32.size) : last < last + 1 := by
  rw [UInt32.lt_iff_toNat_lt, toNat_next room]
  exact Nat.lt_succ_self _

/-- An index after another is the next one, or after the next one. -/
theorem eq_next_or_after {last other : UInt32} (room : last.toNat + 1 < UInt32.size) (after : last < other) :
    other = last + 1 ∨ last + 1 < other := by
  rw [UInt32.lt_iff_toNat_lt] at after ⊢
  rw [← UInt32.toNat_inj, toNat_next room]
  omega

/-- The index that is found is above the last one, and all indices between them are taken. -/
theorem nextFree?_least {taken : UInt32 → Bool} {tries : Nat} {last index : UInt32}
    (found : nextFree? taken tries last = some index) :
    last < index ∧ ∀ other, last < other → other < index → taken other = true := by
  induction tries generalizing last with
  | zero => cases found
  | succ tries ih =>
      rw [nextFree?] at found
      split at found
      · next room =>
          split at found
          · next occupied =>
              obtain ⟨above, between⟩ := ih found
              refine ⟨UInt32.lt_trans (lt_next room) above, fun other later below => ?_⟩
              rcases eq_next_or_after room later with rfl | beyond
              · exact occupied
              · exact between other beyond below
          · cases found
            refine ⟨lt_next room, fun other later below => ?_⟩
            rcases eq_next_or_after room later with rfl | beyond
            · exact (UInt32.lt_irrefl _ below).elim
            · exact (UInt32.lt_irrefl _ (UInt32.lt_trans beyond below)).elim
      · cases found

end Names

namespace Fresh

variable {α β : Type}

theorem bind_ok {first : Fresh α} {second : α → Fresh β} {supply next : Supply} {result : β}
    (drawn : (first >>= second) supply = .ok (result, next)) :
    ∃ value middle, first supply = .ok (value, middle) ∧ second value middle = .ok (result, next) := by
  change (first supply >>= fun pair => second pair.1 pair.2) = _ at drawn
  cases ran : first supply with
  | error failure =>
      rw [ran] at drawn
      cases drawn
  | ok pair =>
      rw [ran] at drawn
      exact ⟨pair.1, pair.2, rfl, drawn⟩

theorem bind_error {first : Fresh α} {second : α → Fresh β} {supply : Supply} {failure : Failure}
    (failed : (first >>= second) supply = .error failure) :
    first supply = .error failure ∨
      ∃ value middle, first supply = .ok (value, middle) ∧ second value middle = .error failure := by
  change (first supply >>= fun pair => second pair.1 pair.2) = _ at failed
  cases ran : first supply with
  | error problem =>
      rw [ran] at failed
      cases failed
      exact .inl rfl
  | ok pair =>
      rw [ran] at failed
      exact .inr ⟨pair.1, pair.2, rfl, failed⟩

theorem bind_of_ok {first : Fresh α} {second : α → Fresh β} {supply middle : Supply} {value : α}
    (ran : first supply = .ok (value, middle)) : (first >>= second) supply = second value middle := by
  change (first supply >>= fun pair => second pair.1 pair.2) = _
  rw [ran]
  rfl

theorem pure_ok {value result : α} {supply next : Supply}
    (drawn : (pure value : Fresh α) supply = .ok (result, next)) : value = result ∧ supply = next := by
  cases drawn
  exact ⟨rfl, rfl⟩

theorem label_eq_ok {supply next : Supply} {drawn : Label} :
    label supply = .ok (drawn, next) ↔
      ∃ index, Names.nextFree? (fun index => supply.labels.contains (.named index))
          (supply.labels.size + 1) supply.names.label = some index ∧
        drawn = .named index ∧
        next = { supply with
          names := { supply.names with label := index }
          labels := supply.labels.insert (.named index) } := by
  simp only [label, Names.freshLabel?]
  cases Names.nextFree? (fun index => supply.labels.contains (.named index))
      (supply.labels.size + 1) supply.names.label with
  | none => simp
  | some index => simp [eq_comm]

theorem work_eq_ok {supply next : Supply} {drawn : Variable} :
    work supply = .ok (drawn, next) ↔
      ∃ index, Names.nextFree? (fun index => supply.vars.contains (.work index))
          (supply.vars.size + 1) supply.names.work = some index ∧
        drawn = .work index ∧
        next = { supply with
          names := { supply.names with work := index }
          vars := supply.vars.insert (.work index) } := by
  simp only [work, Names.freshWork?]
  cases Names.nextFree? (fun index => supply.vars.contains (.work index))
      (supply.vars.size + 1) supply.names.work with
  | none => simp
  | some index => simp [eq_comm]

theorem label_ok {supply next : Supply} {drawn : Label}
    (success : label supply = .ok (drawn, next)) : supply.Draws ⟨[drawn], []⟩ next := by
  obtain ⟨index, found, rfl, rfl⟩ := label_eq_ok.mp success
  have free : Label.named index ∉ supply.labels := by
    rw [← Std.ExtTreeSet.contains_iff_mem, Names.nextFree?_free found]
    exact Bool.false_ne_true
  constructor
  · constructor <;> simp [Draft.names, Label.isNamed, free]
  · ext name
    cases name with
    | label label =>
        simp only [Set.mem_union, Supply.label_mem_taken, Set.mem_ofPred_eq, Draft.label_mem_names,
          Std.ExtTreeSet.mem_insert, Std.LawfulEqCmp.compare_eq_iff_eq, List.mem_singleton]
        rw [or_comm, eq_comm]
    | var name => simp [Supply.taken, Draft.names]

theorem work_ok {supply next : Supply} {drawn : Variable}
    (success : work supply = .ok (drawn, next)) : supply.Draws ⟨[], [drawn]⟩ next := by
  obtain ⟨index, found, rfl, rfl⟩ := work_eq_ok.mp success
  have free : Variable.work index ∉ supply.vars := by
    rw [← Std.ExtTreeSet.contains_iff_mem, Names.nextFree?_free found]
    exact Bool.false_ne_true
  constructor
  · constructor <;> simp [Draft.names, Variable.isWork, free]
  · ext name
    cases name with
    | label label => simp [Supply.taken, Draft.names]
    | var name =>
        simp only [Set.mem_union, Supply.var_mem_taken, Set.mem_ofPred_eq, Draft.var_mem_names,
          Std.ExtTreeSet.mem_insert, Std.LawfulEqCmp.compare_eq_iff_eq, List.mem_singleton]
        rw [or_comm, eq_comm]

/-- What one draw does for one name, repeated draws do for a list of names. -/
theorem mapM_ok {draw : Fresh β} (draft : List β → Draft) (none : draft [] = {})
    (more : ∀ name names, draft (name :: names) = (draft [name]).append (draft names))
    (one : ∀ {supply next name}, draw supply = .ok (name, next) → supply.Draws (draft [name]) next)
    {members : List α} {supply next : Supply} {drawn : List β}
    (success : (members.mapM fun _ => draw) supply = .ok (drawn, next)) :
    supply.Draws (draft drawn) next ∧ drawn.length = members.length := by
  induction members generalizing supply drawn with
  | nil =>
      rw [List.mapM_nil] at success
      obtain ⟨rfl, rfl⟩ := pure_ok success
      exact ⟨none ▸ .nothing supply, rfl⟩
  | cons member rest ih =>
      rw [List.mapM_cons] at success
      obtain ⟨first, middle, firstDrawn, success⟩ := bind_ok success
      obtain ⟨others, last, othersDrawn, success⟩ := bind_ok success
      obtain ⟨rfl, rfl⟩ := pure_ok success
      obtain ⟨draws, length⟩ := ih othersDrawn
      refine ⟨?_, by simp [length]⟩
      rw [more]
      exact (one firstDrawn).trans draws

/-- The results of repeated draws belong to the members, and what was taken before stays taken. -/
theorem mapM_each {action : α → Fresh β}
    (grows : ∀ {member supply result next}, action member supply = .ok (result, next) →
      supply.taken ⊆ next.taken)
    {members : List α} {supply next : Supply} {results : List β}
    (ran : members.mapM action supply = .ok (results, next)) :
    (∀ result ∈ results, ∃ member ∈ members, ∃ before after, supply.taken ⊆ before.taken ∧
      action member before = .ok (result, after)) ∧
    ∀ member ∈ members, ∃ result ∈ results, ∃ before after, supply.taken ⊆ before.taken ∧
      action member before = .ok (result, after) := by
  induction members generalizing supply results with
  | nil =>
      rw [List.mapM_nil] at ran
      obtain ⟨rfl, rfl⟩ := pure_ok ran
      simp
  | cons member rest ih =>
      rw [List.mapM_cons] at ran
      obtain ⟨first, middle, firstRan, ran⟩ := bind_ok ran
      obtain ⟨others, last, othersRan, ran⟩ := bind_ok ran
      obtain ⟨rfl, rfl⟩ := pure_ok ran
      obtain ⟨origins, outcomes⟩ := ih othersRan
      have earlier := grows firstRan
      constructor
      · intro result inResults
        rcases List.mem_cons.mp inResults with rfl | inOthers
        · exact ⟨member, List.mem_cons_self, supply, middle, subset_rfl, firstRan⟩
        · obtain ⟨origin, inRest, before, after, taken, made⟩ := origins result inOthers
          exact ⟨origin, List.mem_cons_of_mem _ inRest, before, after, earlier.trans taken, made⟩
      · intro origin inMembers
        rcases List.mem_cons.mp inMembers with rfl | inRest
        · exact ⟨first, List.mem_cons_self, supply, middle, subset_rfl, firstRan⟩
        · obtain ⟨result, inOthers, before, after, taken, made⟩ := outcomes origin inRest
          exact ⟨result, List.mem_cons_of_mem _ inOthers, before, after, earlier.trans taken, made⟩

theorem works_ok {members : List α} {supply next : Supply} {drawn : List Variable}
    (success : (members.mapM fun _ => work) supply = .ok (drawn, next)) :
    supply.Draws ⟨[], drawn⟩ next ∧ drawn.length = members.length :=
  mapM_ok (fun works => ⟨[], works⟩) rfl (fun _ _ => rfl) work_ok success

theorem labels_ok {members : List α} {supply next : Supply} {drawn : List Label}
    (success : (members.mapM fun _ => label) supply = .ok (drawn, next)) :
    supply.Draws ⟨drawn, []⟩ next ∧ drawn.length = members.length :=
  mapM_ok (fun labels => ⟨labels, []⟩) rfl (fun _ _ => rfl) label_ok success

end Fresh

end CounterMachine
