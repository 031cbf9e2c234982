import CounterMachine.Proofs.Acceptance
import CounterMachine.Proofs.Histories
import Mathlib.Data.List.Dedup
set_option autoImplicit false

/-!
# Rules of a source

A rule is broken at a site of a source, and the sites have an order. The listed violations are those of the
rules, and a source without violations is a source that keeps all rules.
-/

namespace CounterMachine

/-! ## Sites -/

/-- The address of a place where a rule can be broken. Addresses are ordered lexicographically, so a place
comes before the places inside it. -/
abbrev Site := List Nat

namespace Site

/-- A definition; the main program has the number 0. -/
def definition (number : Nat) : Site :=
  [0, number]

/-- An auxiliary function. -/
def function (number : Nat) : Site :=
  [1, number]

/-- The label that is attached at a position of a definition. -/
def attachment (number position : Nat) : Site :=
  [2, number, 0, position]

/-- The target of the jump at a position of a definition. -/
def target (number position : Nat) : Site :=
  [2, number, 1, position]

/-- A call at a position of a definition: the path leads from the outermost call to an argument of it, from
there to an argument of the argument, and so on. -/
def call (number position : Nat) (path : List Nat) : Site :=
  3 :: number :: position :: path

end Site

/-! ## Rules -/

/-- What stands at the end of a path of argument numbers. -/
def Argument.at? : Argument → List Nat → Option Argument
  | argument, [] => some argument
  | .call _ arguments, index :: path => arguments[index]?.bind fun argument => argument.at? path
  | .var _, _ :: _ => none

/-- How many different inputs occur in a definition. -/
def Definition.inputCount (definition : Definition) : Nat :=
  ((definition.body.flatMap Instruction.vars).filter Variable.isInput).dedup.length

namespace Source

/-- The last function with a name. -/
def Defines (source : Source) (name : String) (function : Definition) : Prop :=
  ∃ before after, source.functions = before ++ function :: after ∧ function.name = name ∧
    ∀ later ∈ after, later.name ≠ name

/-- A rule is broken at a site, and this is the violation. -/
inductive Breaks (source : Source) : Site → Violation → Prop where
  | empty {number : Nat} {definition : Definition} (defined : source.definitions[number]? = some definition)
      (nothing : definition.body = []) :
      Breaks source (.definition number) (.emptyDefinition definition.name)
  | repeated {number : Nat} {function : Definition} (defined : source.functions[number]? = some function)
      (second : ((source.functions.take number).map Definition.name).count function.name = 1) :
      Breaks source (.function number) (.duplicateFunction function.name)
  | exit {number position : Nat} {definition : Definition} {instruction : Instruction}
      (defined : source.definitions[number]? = some definition)
      (placed : definition.body[position]? = some instruction) (label : instruction.label = .exit) :
      Breaks source (.attachment number position) (.exitAsLabel definition.name position)
  | attachedBefore {number position first : Nat} {definition : Definition}
      {instruction earlier : Instruction} (defined : source.definitions[number]? = some definition)
      (placed : definition.body[position]? = some instruction) (named : instruction.label.isNamed = true)
      (before : first < position) (placedFirst : definition.body[first]? = some earlier)
      (same : earlier.label = instruction.label)
      (least : ∀ other ∈ definition.body.take first, other.label ≠ instruction.label) :
      Breaks source (.attachment number position)
        (.duplicateLabel definition.name instruction.label position first)
  | nowhere {number position : Nat} {definition : Definition} {instruction : Instruction} {target : Label}
      (defined : source.definitions[number]? = some definition)
      (placed : definition.body[position]? = some instruction) (jumps : instruction.target? = some target)
      (named : target.isNamed = true) (absent : ∀ other ∈ definition.body, other.label ≠ target) :
      Breaks source (.target number position) (.undefinedLabel definition.name target position)
  | unknown {number position : Nat} {path : List Nat} {definition : Definition} {instruction : Instruction}
      {outer : Call} {called : String} {arguments : List Argument}
      (defined : source.definitions[number]? = some definition)
      (placed : definition.body[position]? = some instruction) (calls : instruction.call? = some outer)
      (inside : outer.toArgument.at? path = some (.call called arguments))
      (missing : ∀ function ∈ source.functions, function.name ≠ called) :
      Breaks source (.call number position path) (.unknownFunction definition.name called position)
  | arity {number position : Nat} {path : List Nat} {definition function : Definition}
      {instruction : Instruction} {outer : Call} {called : String} {arguments : List Argument}
      (defined : source.definitions[number]? = some definition)
      (placed : definition.body[position]? = some instruction) (calls : instruction.call? = some outer)
      (inside : outer.toArgument.at? path = some (.call called arguments))
      (known : source.Defines called function) (differs : function.inputCount ≠ arguments.length) :
      Breaks source (.call number position path)
        (.arityMismatch definition.name called function.inputCount arguments.length position)

/-- A source that keeps all rules. -/
structure Lawful (source : Source) : Prop where
  nonempty : ∀ definition ∈ source.definitions, definition.body ≠ []
  distinct : (source.functions.map Definition.name).Nodup
  labels : ∀ definition ∈ source.definitions, Resolved definition.body
  calls : ∀ definition ∈ source.definitions, ∀ instruction ∈ definition.body,
    ∀ outer, instruction.call? = some outer → ∀ call ∈ outer.calls,
      ∃ function, source.Defines call.function function ∧ function.inputCount = call.arguments.length

end Source

/-! ## Called functions -/

theorem Definition.length_inputs (definition : Definition) :
    definition.inputs.length = definition.inputCount := by
  have distinct : definition.inputs.Nodup := (VariableSet.toList_nodup definition.vars).filter _
  refine ((List.perm_ext_iff_of_nodup distinct (List.nodup_dedup _)).mpr fun name => ?_).length_eq
  have occurs : name ∈ definition.vars.toList ↔
      name = .result ∨ name ∈ definition.body.flatMap Instruction.vars := by
    rw [Std.ExtTreeSet.mem_toList, vars, Std.ExtTreeSet.mem_ofList, List.contains_iff_mem, List.mem_cons]
  rw [inputs, List.mem_dedup, List.mem_filter, List.mem_filter, occurs]
  constructor
  · rintro ⟨rfl | member, input⟩
    · cases input
    · exact ⟨member, input⟩
  · rintro ⟨member, input⟩
    exact ⟨.inr member, input⟩

namespace Source

variable {source : Source}

theorem find?_function {name : String} {function : Definition} :
    (source.functions.reverse.find? fun function => function.name = name) = some function ↔
      source.Defines name function := by
  simp only [List.find?_eq_some_iff_append, decide_eq_true_eq, Bool.not_eq_true', decide_eq_false_iff_not,
    List.reverse_eq_iff, List.reverse_append, List.reverse_cons, List.append_assoc, List.singleton_append]
  constructor
  · rintro ⟨called, after, before, text, later⟩
    refine ⟨before.reverse, after.reverse, text, called, fun function member => ?_⟩
    exact later function (List.mem_reverse.mp member)
  · rintro ⟨before, after, text, called, later⟩
    refine ⟨called, after.reverse, before.reverse, by simpa using text, fun function member => ?_⟩
    exact later function (List.mem_reverse.mp member)

theorem arity?_eq_some {name : String} {expected : Nat} :
    source.arity? name = some expected ↔
      ∃ function, source.Defines name function ∧ function.inputCount = expected := by
  simp only [arity?, Option.map_eq_some_iff, find?_function, Definition.length_inputs]

theorem arity?_eq_none {name : String} :
    source.arity? name = none ↔ ∀ function ∈ source.functions, function.name ≠ name := by
  simp [arity?]

variable {definition : String} {position : Nat} {call : Call} {violation : Violation}

theorem callViolation?_eq_some : source.callViolation? definition position call = some violation ↔
    ((∀ function ∈ source.functions, function.name ≠ call.function) ∧
        violation = .unknownFunction definition call.function position) ∨
      ∃ function, source.Defines call.function function ∧ function.inputCount ≠ call.arguments.length ∧
        violation =
          .arityMismatch definition call.function function.inputCount call.arguments.length position := by
  have split : source.callViolation? definition position call = some violation ↔
      (source.arity? call.function = none ∧
          violation = .unknownFunction definition call.function position) ∨
        ∃ expected, source.arity? call.function = some expected ∧ expected ≠ call.arguments.length ∧
          violation = .arityMismatch definition call.function expected call.arguments.length position := by
    rw [callViolation?]
    cases source.arity? call.function with
    | none => simp [eq_comm]
    | some expected => simp [eq_comm]
  simp only [split, arity?_eq_none, arity?_eq_some, exists_exists_and_eq_and]

theorem callViolation?_eq_none : source.callViolation? definition position call = none ↔
    ∃ function, source.Defines call.function function ∧ function.inputCount = call.arguments.length := by
  rw [← arity?_eq_some, callViolation?]
  cases source.arity? call.function with
  | none => simp
  | some expected => simp [ite_eq_left_iff]

end Source

/-! ## Labels -/

namespace Definition

variable {definition : Definition} {position : Nat} {label : Label} {violation : Violation}

theorem findIdx?_label {first : Nat} :
    (definition.body.findIdx? fun instruction => instruction.label = label) = some first ↔
      ∃ earlier, definition.body[first]? = some earlier ∧ earlier.label = label ∧
        ∀ other ∈ definition.body.take first, other.label ≠ label := by
  simp only [List.findIdx?_eq_some_iff_getElem, decide_eq_true_eq]
  constructor
  · rintro ⟨inside, labeled, least⟩
    refine ⟨_, List.getElem?_eq_getElem inside, labeled, fun other member => ?_⟩
    obtain ⟨place, before, rfl⟩ := List.mem_take_iff_getElem.mp member
    exact least place (by omega)
  · rintro ⟨earlier, found, labeled, least⟩
    obtain ⟨inside, rfl⟩ := List.getElem?_eq_some_iff.mp found
    refine ⟨inside, labeled, fun place before => ?_⟩
    exact least _ (List.mem_take_iff_getElem.mpr ⟨place, by omega, rfl⟩)

theorem attachmentViolation?_eq_some :
    definition.attachmentViolation? position label = some violation ↔
      (label = .exit ∧ violation = .exitAsLabel definition.name position) ∨
        label.isNamed = true ∧ ∃ first < position,
          (definition.body.findIdx? fun instruction => instruction.label = label) = some first ∧
            violation = .duplicateLabel definition.name label position first := by
  cases label with
  | empty => simp [attachmentViolation?, Label.isNamed]
  | exit => simp [attachmentViolation?, Label.isNamed, eq_comm]
  | named index =>
      simp only [attachmentViolation?, Label.isNamed]
      cases definition.body.findIdx? fun instruction => instruction.label = .named index with
      | none => simp
      | some first => simp [eq_comm]

theorem targetViolation?_eq_some :
    definition.targetViolation? position label = some violation ↔
      label.isNamed = true ∧ (∀ other ∈ definition.body, other.label ≠ label) ∧
        violation = .undefinedLabel definition.name label position := by
  simp only [targetViolation?, Option.ite_none_right_eq_some, Bool.and_eq_true, Bool.not_eq_true',
    List.any_eq_false, decide_eq_true_eq, Option.some.injEq, and_assoc, @eq_comm _ violation]

end Definition

/-! ## Lawful sources -/

namespace Source

variable {source : Source}

theorem emptyDefinitions_eq_nil :
    source.emptyDefinitions = [] ↔ ∀ definition ∈ source.definitions, definition.body ≠ [] := by
  simp [emptyDefinitions]

theorem duplicateFunctions_eq_nil :
    source.duplicateFunctions = [] ↔ (source.functions.map Definition.name).Nodup := by
  simp only [duplicateFunctions, List.map_eq_nil_iff, List.filter_eq_nil_iff, Prod.forall,
    List.mem_zipIdx_iff_getElem?, decide_eq_true_eq]
  generalize source.functions.map Definition.name = names
  constructor
  · intro never
    have parts : ∀ length, (names.take length).Nodup := by
      intro length
      induction length with
      | zero => exact .nil
      | succ length ih =>
          rw [List.take_add_one]
          cases found : names[length]? with
          | none => simpa using ih
          | some name =>
              have atMostOnce := List.nodup_iff_count_le_one.mp ih name
              have notOnce := never name length found
              have absent : name ∉ names.take length := List.count_eq_zero.mp (by omega)
              exact List.nodup_append_comm.mp (List.nodup_cons.mpr ⟨absent, ih⟩)
    simpa using parts names.length
  · intro distinct name position found once
    have split : names = names.take position ++ name :: names.drop (position + 1) := by
      obtain ⟨inside, rfl⟩ := List.getElem?_eq_some_iff.mp found
      simp
    have atMostOnce := List.nodup_iff_count_le_one.mp distinct name
    rw [split, List.count_append, once, List.count_cons_self] at atMostOnce
    omega

theorem callViolations_eq_nil_iff {definition : Definition} :
    source.callViolations definition = [] ↔ ∀ instruction ∈ definition.body,
      ∀ outer, instruction.call? = some outer → ∀ call ∈ outer.calls,
        ∃ function, source.Defines call.function function ∧ function.inputCount = call.arguments.length := by
  simp only [callViolations, List.flatMap_eq_nil_iff, List.filterMap_eq_nil_iff, callViolation?_eq_none,
    List.mem_flatMap, Option.mem_toList, forall_exists_index, and_imp, Prod.forall]
  constructor
  · intro fit instruction member outer calls call nested
    obtain ⟨position, found⟩ := List.mem_iff_getElem?.mp member
    exact fit instruction position (List.mem_zipIdx_iff_getElem?.mpr found) call outer calls nested
  · intro fit instruction position member call outer calls nested
    have inBody := List.mem_of_getElem? (List.mem_zipIdx_iff_getElem?.mp member)
    exact fit instruction inBody outer calls call nested

theorem violations_eq_nil : source.violations = [] ↔ source.Lawful := by
  have resolved (definition : Definition) : definition.labelViolations = [] ↔ Resolved definition.body :=
    ⟨Definition.resolved_body, Definition.labelViolations_eq_nil⟩
  simp only [violations, List.append_eq_nil_iff, List.flatMap_eq_nil_iff, emptyDefinitions_eq_nil,
    duplicateFunctions_eq_nil, resolved, callViolations_eq_nil_iff]
  constructor
  · rintro ⟨⟨⟨nonempty, distinct⟩, labels⟩, calls⟩
    exact ⟨nonempty, distinct, labels, calls⟩
  · rintro ⟨nonempty, distinct, labels, calls⟩
    exact ⟨⟨⟨nonempty, distinct⟩, labels⟩, calls⟩

end Source

end CounterMachine
