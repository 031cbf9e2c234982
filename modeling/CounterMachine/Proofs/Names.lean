import CounterMachine.Instruction
import Mathlib.Data.Set.Basic
set_option autoImplicit false

/-!
# Names in instructions

The names of an instruction are its named labels and its variables. The empty label and `EXIT` are not names.
A renaming of variables or of targets acts on the names of an instruction one by one.
-/

namespace CounterMachine

/-- A label or a variable. -/
inductive Name where
  | label (label : Label)
  | var (name : Variable)
deriving DecidableEq

/-! ## Renaming -/

namespace Argument

mutual

theorem vars_mapVars (rename : Variable → Variable) :
    (argument : Argument) → (argument.mapVars rename).vars = argument.vars.map rename
  | .var name => by simp only [mapVars, vars, List.map_cons, List.map_nil]
  | .call function arguments => by
      simp only [mapVars, vars]
      exact varsAll_mapVarsAll rename arguments

theorem varsAll_mapVarsAll (rename : Variable → Variable) :
    (arguments : List Argument) →
      varsAll (mapVarsAll rename arguments) = (varsAll arguments).map rename
  | [] => by simp only [mapVarsAll, varsAll, List.map_nil]
  | argument :: rest => by
      simp only [mapVarsAll, varsAll, List.map_append]
      rw [vars_mapVars rename argument, varsAll_mapVarsAll rename rest]

end

mutual

theorem calls_mapVars (rename : Variable → Variable) :
    (argument : Argument) → (argument.mapVars rename).calls = argument.calls.map (Call.mapVars rename)
  | .var name => by simp only [mapVars, calls, List.map_nil]
  | .call function arguments => by
      simp only [mapVars, calls, List.map_cons, Call.mapVars]
      rw [callsAll_mapVarsAll rename arguments]

theorem callsAll_mapVarsAll (rename : Variable → Variable) :
    (arguments : List Argument) →
      callsAll (mapVarsAll rename arguments) = (callsAll arguments).map (Call.mapVars rename)
  | [] => by simp only [mapVarsAll, callsAll, List.map_nil]
  | argument :: rest => by
      simp only [mapVarsAll, callsAll, List.map_append]
      rw [calls_mapVars rename argument, callsAll_mapVarsAll rename rest]

end

theorem mapVarsAll_eq_map (rename : Variable → Variable) (arguments : List Argument) :
    mapVarsAll rename arguments = arguments.map (mapVars rename) := by
  induction arguments with
  | nil => rfl
  | cons argument rest ih => rw [mapVarsAll, ih, List.map_cons]

theorem length_mapVarsAll (rename : Variable → Variable) (arguments : List Argument) :
    (mapVarsAll rename arguments).length = arguments.length := by
  rw [mapVarsAll_eq_map, List.length_map]

mutual

theorem mapVars_id : (argument : Argument) → argument.mapVars id = argument
  | .var name => by rw [mapVars, id]
  | .call function arguments => by rw [mapVars, mapVarsAll_id arguments]

theorem mapVarsAll_id : (arguments : List Argument) → mapVarsAll id arguments = arguments
  | [] => by rw [mapVarsAll]
  | argument :: rest => by rw [mapVarsAll, mapVars_id argument, mapVarsAll_id rest]

end

mutual

theorem mapVars_congr {rename other : Variable → Variable} : (argument : Argument) →
    (∀ name ∈ argument.vars, rename name = other name) → argument.mapVars rename = argument.mapVars other
  | .var name, same => by rw [mapVars, mapVars, same name (by rw [vars]; exact List.mem_singleton_self _)]
  | .call function arguments, same => by
      rw [vars] at same
      rw [mapVars, mapVars, mapVarsAll_congr arguments same]

theorem mapVarsAll_congr {rename other : Variable → Variable} : (arguments : List Argument) →
    (∀ name ∈ varsAll arguments, rename name = other name) →
    mapVarsAll rename arguments = mapVarsAll other arguments
  | [], _ => by rw [mapVarsAll, mapVarsAll]
  | argument :: rest, same => by
      rw [varsAll] at same
      rw [mapVarsAll, mapVarsAll, mapVars_congr argument fun name member =>
          same name (List.mem_append_left _ member),
        mapVarsAll_congr rest fun name member => same name (List.mem_append_right _ member)]

end

mutual

theorem mapVars_mapVars (first second : Variable → Variable) : (argument : Argument) →
    (argument.mapVars first).mapVars second = argument.mapVars fun name => second (first name)
  | .var name => by rw [mapVars, mapVars, mapVars]
  | .call function arguments => by
      rw [mapVars, mapVars, mapVars, mapVarsAll_mapVarsAll first second arguments]

theorem mapVarsAll_mapVarsAll (first second : Variable → Variable) : (arguments : List Argument) →
    mapVarsAll second (mapVarsAll first arguments) = mapVarsAll (fun name => second (first name)) arguments
  | [] => by rw [mapVarsAll, mapVarsAll, mapVarsAll]
  | argument :: rest => by
      rw [mapVarsAll, mapVarsAll, mapVarsAll, mapVars_mapVars first second argument,
        mapVarsAll_mapVarsAll first second rest]

end

theorem varsAll_eq_flatMap (arguments : List Argument) :
    varsAll arguments = arguments.flatMap vars := by
  induction arguments with
  | nil => rfl
  | cons argument rest ih => rw [varsAll, ih, List.flatMap_cons]

theorem callsAll_eq_flatMap (arguments : List Argument) :
    callsAll arguments = arguments.flatMap calls := by
  induction arguments with
  | nil => rfl
  | cons argument rest ih => rw [callsAll, ih, List.flatMap_cons]

end Argument

theorem Call.calls_mapVars (rename : Variable → Variable) (call : Call) :
    (call.mapVars rename).calls = call.calls.map (Call.mapVars rename) :=
  Argument.calls_mapVars rename call.toArgument

namespace Operation

variable (operation : Operation) (rename : Variable → Variable) (redirect : Label → Label)

@[simp] theorem vars_mapVars : (operation.mapVars rename).vars = operation.vars.map rename := by
  cases operation <;> simp [mapVars, vars, Call.mapVars, Call.vars, Argument.varsAll_mapVarsAll]

@[simp] theorem mapVars_id : operation.mapVars id = operation := by
  cases operation <;> simp [mapVars, Call.mapVars, Argument.mapVarsAll_id]

@[simp] theorem vars_mapTarget : (operation.mapTarget redirect).vars = operation.vars := by
  cases operation <;> rfl

@[simp] theorem mapTarget_id : operation.mapTarget id = operation := by
  cases operation <;> rfl

@[simp] theorem target?_mapVars : (operation.mapVars rename).target? = operation.target? := by
  cases operation <;> rfl

@[simp] theorem target?_mapTarget :
    (operation.mapTarget redirect).target? = operation.target?.map redirect := by
  cases operation <;> rfl

@[simp] theorem call?_mapVars :
    (operation.mapVars rename).call? = operation.call?.map (Call.mapVars rename) := by
  cases operation <;> rfl

@[simp] theorem call?_mapTarget : (operation.mapTarget redirect).call? = operation.call? := by
  cases operation <;> rfl

@[simp] theorem kind_mapVars : (operation.mapVars rename).kind = operation.kind := by
  cases operation <;> rfl

@[simp] theorem kind_mapTarget : (operation.mapTarget redirect).kind = operation.kind := by
  cases operation <;> rfl

theorem mapVars_mapVars (other : Variable → Variable) :
    (operation.mapVars rename).mapVars other = operation.mapVars fun name => other (rename name) := by
  cases operation <;> simp [mapVars, Call.mapVars, Argument.mapVarsAll_mapVarsAll]

theorem mapTarget_mapTarget (other : Label → Label) :
    (operation.mapTarget redirect).mapTarget other =
      operation.mapTarget fun target => other (redirect target) := by
  cases operation <;> rfl

theorem mapVars_mapTarget :
    (operation.mapTarget redirect).mapVars rename = (operation.mapVars rename).mapTarget redirect := by
  cases operation <;> rfl

theorem mapVars_congr {operation : Operation} {rename other : Variable → Variable}
    (same : ∀ name ∈ operation.vars, rename name = other name) :
    operation.mapVars rename = operation.mapVars other := by
  cases operation with
  | quote subject call | jumpEqualFunction subject call target =>
      have inCall := Argument.mapVarsAll_congr call.arguments fun name occurs =>
        same name (List.mem_cons_of_mem _ occurs)
      simp [mapVars, Call.mapVars, inCall, same subject (by simp [vars])]
  | _ => simp_all [mapVars, vars]

theorem mapTarget_congr {operation : Operation} {redirect other : Label → Label}
    (same : ∀ target, operation.target? = some target → redirect target = other target) :
    operation.mapTarget redirect = operation.mapTarget other := by
  cases operation <;> simp_all [mapTarget, target?]

theorem vars_of_call {operation : Operation} {call : Call} (found : operation.call? = some call) :
    call.vars ⊆ operation.vars := by
  cases operation <;> simp_all [call?, vars]

end Operation

theorem Instruction.call?_of_basic {instruction : Instruction} (basic : instruction.isBasic = true) :
    instruction.operation.call? = none := by
  cases instruction with
  | mk label operation =>
      cases operation with
      | quote | jumpEqualFunction => cases basic
      | _ => rfl

/-! ## Names -/

namespace Instruction

/-- The names that occur in an instruction. -/
def names (instruction : Instruction) : List Name :=
  instruction.namedLabels.map .label ++ instruction.vars.map .var

theorem label_mem_names {instruction : Instruction} {label : Label} :
    .label label ∈ instruction.names ↔
      label.isNamed = true ∧ (instruction.label = label ∨ instruction.target? = some label) := by
  simp only [names, namedLabels, List.mem_append, List.mem_map, List.mem_filter, List.mem_cons,
    Option.mem_toList, Name.label.injEq, exists_eq_right, reduceCtorEq, and_false,
    exists_false, or_false]
  rw [and_comm, eq_comm (a := label)]

theorem var_mem_names {instruction : Instruction} {name : Variable} :
    .var name ∈ instruction.names ↔ name ∈ instruction.operation.vars := by
  simp [names, vars]

end Instruction

/-- The names that occur in some instructions. -/
def namesIn (code : List Instruction) : Set Name :=
  { name | ∃ instruction ∈ code, name ∈ instruction.names }

@[simp] theorem mem_namesIn {code : List Instruction} {name : Name} :
    name ∈ namesIn code ↔ ∃ instruction ∈ code, name ∈ instruction.names :=
  Iff.rfl

@[simp] theorem namesIn_nil : namesIn [] = ∅ := by
  ext name
  simp

@[simp] theorem namesIn_cons (instruction : Instruction) (code : List Instruction) :
    namesIn (instruction :: code) = { name | name ∈ instruction.names } ∪ namesIn code := by
  ext name
  simp

@[simp] theorem namesIn_append (left right : List Instruction) :
    namesIn (left ++ right) = namesIn left ∪ namesIn right := by
  ext name
  simp only [mem_namesIn, List.mem_append, Set.mem_union]
  constructor
  · intro found
    obtain ⟨instruction, member | member, occurs⟩ := found
    · exact .inl ⟨instruction, member, occurs⟩
    · exact .inr ⟨instruction, member, occurs⟩
  · intro found
    rcases found with ⟨instruction, member, occurs⟩ | ⟨instruction, member, occurs⟩
    · exact ⟨instruction, .inl member, occurs⟩
    · exact ⟨instruction, .inr member, occurs⟩

end CounterMachine
