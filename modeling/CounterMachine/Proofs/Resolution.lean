import CounterMachine.Proofs.Rounds
import CounterMachine.Program
import Mathlib.Data.List.TakeWhile
set_option autoImplicit false

/-!
# Functions that are resolved

Resolution follows calls from name to name, and moves each function that it meets out of the registry. It ends
for every call graph, since a function is moved at most once. The resolved functions are then exactly those
that are reached, or else a name was reached that the registry does not have.
-/

namespace CounterMachine.Registry

open Relation

/-! ## Pending names -/

theorem mem_of_dropWhile {α : Type} {skip : α → Bool} {members rest : List α} {first : α}
    (dropped : members.dropWhile skip = first :: rest) :
    skip first = false ∧ first ∈ members ∧
      (∀ member ∈ members, skip member = true ∨ member = first ∨ member ∈ rest) ∧
      ∀ member ∈ rest, member ∈ members := by
  have stops := List.head?_dropWhile_not skip members
  have parts := List.takeWhile_append_dropWhile (p := skip) (l := members)
  rw [dropped] at stops parts
  refine ⟨by simpa using stops, ?_, ?_, ?_⟩
  · rw [← parts]
    simp
  · intro member inMembers
    rw [← parts, List.mem_append, List.mem_cons] at inMembers
    rcases inMembers with skipped | later
    · exact .inl (List.mem_takeWhile_imp skipped)
    · exact .inr later
  · intro member inRest
    rw [← parts]
    simp [inRest]

theorem mem_insert_iff {registry : Registry} {name other : String} {routine : Routine} :
    other ∈ registry.insert name routine ↔ other = name ∨ other ∈ registry := by
  rw [Std.ExtTreeMap.mem_insert, Std.LawfulEqCmp.compare_eq_iff_eq, eq_comm]

theorem getElem?_insert_name {registry : Registry} {name other : String} {routine : Routine} :
    (registry.insert name routine)[other]? =
      if other = name then some routine else registry[other]? := by
  rw [Std.ExtTreeMap.getElem?_insert]
  simp only [Std.LawfulEqCmp.compare_eq_iff_eq, @eq_comm _ other name]

theorem mem_iff_exists {registry : Registry} {name : String} :
    name ∈ registry ↔ ∃ routine, registry[name]? = some routine := by
  rw [← Std.ExtTreeMap.isSome_getElem?_iff_mem, Option.isSome_iff_exists]

/-! ## The search -/

/-- A search for the functions that some names lead to: functions that are resolved, the registry without
them, and names that are still pending. -/
structure Searching (full : Registry) (names : List String) (registry resolved : Registry)
    (pending : List String) : Prop where
  rest : ∀ name : String, registry[name]? = if name ∈ resolved then none else full[name]?
  part : ∀ {name : String} {routine : Routine}, resolved[name]? = some routine →
    full[name]? = some routine
  reached : ∀ name : String, name ∈ resolved ∨ name ∈ pending → full.Reached names name
  begun : ∀ name ∈ names, name ∈ resolved ∨ name ∈ pending
  calls : ∀ {name : String} {routine : Routine}, resolved[name]? = some routine →
    ∀ called ∈ routine.calledNames, called ∈ resolved ∨ called ∈ pending

namespace Searching

variable {full registry resolved functions : Registry} {names pending rest : List String} {name : String}
  {routine : Routine}

theorem start (full : Registry) (names : List String) : Searching full names full ∅ names where
  rest := by simp
  part := by simp
  reached := by
    rintro name (absent | member)
    · simp at absent
    · exact ⟨name, member, .refl⟩
  begun := fun _ member => .inr member
  calls := by simp

theorem unresolved (dropped : pending.dropWhile resolved.contains = name :: rest) : name ∉ resolved := by
  rw [← Std.ExtTreeMap.contains_iff_mem, (mem_of_dropWhile dropped).1]
  exact Bool.false_ne_true

/-- What was resolved or pending stays so when a function is moved. -/
theorem remains (dropped : pending.dropWhile resolved.contains = name :: rest) {other : String}
    (known : other ∈ resolved ∨ other ∈ pending) :
    other ∈ resolved.insert name routine ∨ other ∈ rest ++ routine.calledNames := by
  rw [mem_insert_iff, List.mem_append]
  rcases known with done | waiting
  · exact .inl (.inr done)
  · rcases (mem_of_dropWhile dropped).2.2.1 other waiting with skipped | same | inRest
    · exact .inl (.inr (Std.ExtTreeMap.contains_iff_mem.mp skipped))
    · exact .inl (.inl same)
    · exact .inr (.inl inRest)

theorem step (searching : Searching full names registry resolved pending)
    (dropped : pending.dropWhile resolved.contains = name :: rest)
    (found : registry[name]? = some routine) :
    Searching full names (registry.erase name) (resolved.insert name routine)
      (rest ++ routine.calledNames) := by
  obtain ⟨_, waiting, _, later⟩ := mem_of_dropWhile dropped
  have present : full[name]? = some routine := by
    rw [← found, searching.rest, if_neg (unresolved dropped)]
  have here : full.Reached names name := searching.reached name (.inr waiting)
  constructor
  · intro other
    rw [Std.ExtTreeMap.getElem?_erase, searching.rest]
    simp only [Std.LawfulEqCmp.compare_eq_iff_eq, mem_insert_iff, @eq_comm _ other name]
    by_cases same : name = other <;> simp [same]
  · intro other known inserted
    rw [getElem?_insert_name] at inserted
    split at inserted
    · next same =>
        cases inserted
        exact same ▸ present
    · exact searching.part inserted
  · rintro other (done | waits)
    · rcases mem_insert_iff.mp done with rfl | earlier
      · exact here
      · exact searching.reached other (.inl earlier)
    · rcases List.mem_append.mp waits with inRest | called
      · exact searching.reached other (.inr (later other inRest))
      · exact here.calls ⟨routine, present, called⟩
  · intro other member
    exact remains dropped (searching.begun other member)
  · intro other known inserted called member
    rw [getElem?_insert_name] at inserted
    split at inserted
    · cases inserted
      exact .inr (List.mem_append_right _ member)
    · exact remains dropped (searching.calls inserted called member)

/-- A search that has no pending names is over: what is reached is resolved. -/
theorem complete (searching : Searching full names registry resolved pending)
    (dropped : pending.dropWhile resolved.contains = []) (reached : full.Reached names name) :
    name ∈ resolved := by
  have done : ∀ {other : String}, other ∈ resolved ∨ other ∈ pending → other ∈ resolved := by
    rintro other (earlier | waiting)
    · exact earlier
    · exact Std.ExtTreeMap.contains_iff_mem.mp (List.dropWhile_eq_nil_iff.mp dropped other waiting)
  obtain ⟨first, member, path⟩ := reached
  induction path with
  | refl => exact done (searching.begun first member)
  | @tail caller callee _ calls ih =>
      obtain ⟨routine, found, called⟩ := calls
      obtain ⟨linked, present⟩ := mem_iff_exists.mp ih
      obtain rfl := Option.some.inj ((searching.part present).symm.trans found)
      exact done (searching.calls present callee called)

theorem mem_iff (searching : Searching full names registry resolved pending)
    (linked : resolvePending registry resolved pending = .ok functions) :
    name ∈ functions ↔ full.Reached names name := by
  fun_induction resolvePending registry resolved pending with
  | case1 registry resolved pending dropped =>
      cases linked
      exact ⟨fun member => searching.reached name (.inl member), searching.complete dropped⟩
  | case2 registry resolved pending first rest dropped missing => cases linked
  | case3 registry resolved pending first rest dropped callee found ih =>
      exact ih (searching.step dropped found) linked

theorem copies (searching : Searching full names registry resolved pending)
    (linked : resolvePending registry resolved pending = .ok functions)
    (found : functions[name]? = some routine) : full[name]? = some routine := by
  fun_induction resolvePending registry resolved pending with
  | case1 registry resolved pending dropped =>
      cases linked
      exact searching.part found
  | case2 registry resolved pending first rest dropped missing => cases linked
  | case3 registry resolved pending first rest dropped callee present ih =>
      exact ih (searching.step dropped present) linked

theorem fails (searching : Searching full names registry resolved pending) {failure : Failure}
    (failed : resolvePending registry resolved pending = .error failure) :
    ∃ name, failure = .unknownFunction name ∧ full.Reached names name ∧ full[name]? = none := by
  fun_induction resolvePending registry resolved pending with
  | case1 registry resolved pending dropped => cases failed
  | case2 registry resolved pending first rest dropped missing =>
      cases failed
      rw [searching.rest, if_neg (unresolved dropped)] at missing
      exact ⟨first, rfl, searching.reached first (.inr (mem_of_dropWhile dropped).2.1), missing⟩
  | case3 registry resolved pending first rest dropped callee found ih =>
      exact ih (searching.step dropped found) failed

end Searching

/-! ## Resolution of a routine -/

variable {registry functions : Registry} {routine callee : Routine} {name : String}

/-- The resolved functions are those that are reached. -/
theorem mem_resolve (linked : registry.resolve routine = .ok functions) :
    name ∈ functions ↔ registry.Reached routine.calledNames name :=
  (Searching.start registry routine.calledNames).mem_iff linked

/-- A resolved function is the registered one. -/
theorem resolve_part (linked : registry.resolve routine = .ok functions)
    (found : functions[name]? = some callee) : registry[name]? = some callee :=
  (Searching.start registry routine.calledNames).copies linked found

theorem getElem?_resolve (linked : registry.resolve routine = .ok functions)
    (reached : registry.Reached routine.calledNames name) : functions[name]? = registry[name]? := by
  obtain ⟨callee, found⟩ := mem_iff_exists.mp ((mem_resolve linked).mpr reached)
  rw [found, resolve_part linked found]

/-- The resolved functions reach each other only. -/
theorem mem_of_reached (linked : registry.resolve routine = .ok functions)
    (reached : functions.Reached routine.calledNames name) : name ∈ functions := by
  obtain ⟨first, member, path⟩ := reached
  refine (mem_resolve linked).mpr ⟨first, member, ReflTransGen.mono ?_ _ _ path⟩
  rintro caller called ⟨origin, found, calls⟩
  exact ⟨origin, resolve_part linked found, calls⟩

theorem resolve_error {failure : Failure} (failed : registry.resolve routine = .error failure) :
    ∃ name, failure = .unknownFunction name ∧ registry.Reached routine.calledNames name ∧
      registry[name]? = none :=
  (Searching.start registry routine.calledNames).fails failed

theorem exists_resolve (registered : ∀ name, registry.Reached routine.calledNames name → name ∈ registry) :
    ∃ functions, registry.resolve routine = .ok functions := by
  cases linked : registry.resolve routine with
  | ok functions => exact ⟨functions, rfl⟩
  | error failure =>
      obtain ⟨name, _, reached, missing⟩ := resolve_error linked
      obtain ⟨callee, found⟩ := mem_iff_exists.mp (registered name reached)
      rw [missing] at found
      cases found

end CounterMachine.Registry
