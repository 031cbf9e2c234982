import CounterMachine.Proofs.Lagging
import CounterMachine.Proofs.Rounds
import CounterMachine.Proofs.Signatures
set_option autoImplicit false

/-!
# Peeling of levels

Collapse peels exactly one level. On source instructions, an expansion that reaches its number of rounds and
is then collapsed once yields what one round less yields, up to the names that were drawn: the two
expansions draw their names in different orders, so they are followed side by side, and a permutation of the
names is extended block by block.
-/

namespace CounterMachine

/-! ## Trees that are cut at a depth -/

namespace Derivation

/-- Cuts a tree at a depth. -/
def prune : (depth : Nat) → Derivation → Derivation
  | 0, tree => .leaf tree.instruction
  | _ + 1, .leaf instruction => .leaf instruction
  | depth + 1, .node instruction children => .node instruction (children.map (prune depth))

@[simp] theorem prune_zero (tree : Derivation) : tree.prune 0 = .leaf tree.instruction := by
  rw [prune]

@[simp] theorem prune_leaf (depth : Nat) (instruction : Instruction) :
    (leaf instruction).prune depth = .leaf instruction := by
  cases depth <;> rfl

@[simp] theorem prune_node (depth : Nat) (instruction : Instruction) (children : List Derivation) :
    (node instruction children).prune (depth + 1) = .node instruction (children.map (prune depth)) := by
  rw [prune]

end Derivation

/-- Cutting a branch above its deepest level cuts its tree at a depth. -/
theorem Branch.In.derivation_cut {forest : Forest} {branch : Branch} (held : branch.In forest) {node : Node}
    (found : forest.get? branch.id = some node) {depth deepest : Nat}
    (level : node.depth + depth + 1 = deepest) :
    (branch.cut fun id => (forest.get? id).any fun node => node.depth + 1 = deepest).derivation =
      branch.derivation.prune depth := by
  induction held generalizing node depth with
  | leaf present => simp
  | @node id origin children present linked inner ih =>
      rw [Branch.id, present] at found
      cases found
      cases depth with
      | zero =>
          have last : origin.depth + 1 = deepest := level
          simp [cut_node, present, last, Derivation.instruction]
      | succ depth =>
          have notLast : origin.depth + 1 ≠ deepest := by omega
          rw [cut_node, if_neg (by simp [present, notLast]), derivation_node, derivation_node,
            Derivation.prune_node, List.map_map, List.map_map]
          congr 1
          refine List.map_congr_left fun child inChildren => ?_
          obtain ⟨ordinal, place⟩ := List.mem_iff_getElem?.mp inChildren
          refine ih child inChildren (linked place) ?_
          simp only [Node.child]
          omega

/-! ## Two runs side by side -/

/-- A permutation, and the names that it is to be kept on. -/
structure Pairing where
  permutation : Permutation
  used : Set Name

namespace Pairing

variable {pairing middle larger : Pairing} {ahead behind next last : Supply}
  {code copy : List Instruction}

/-- A permutation that agrees with another on all names that the other is to be kept on. -/
structure Extends (larger pairing : Pairing) : Prop where
  used : pairing.used ⊆ larger.used
  agrees : ∀ name ∈ pairing.used, larger.permutation.name name = pairing.permutation.name name

theorem Extends.refl (pairing : Pairing) : pairing.Extends pairing :=
  ⟨fun _ member => member, fun _ _ => rfl⟩

theorem Extends.trans (second : larger.Extends middle) (first : middle.Extends pairing) :
    larger.Extends pairing where
  used := fun _ member => second.used (first.used member)
  agrees := fun name member => (second.agrees name (first.used member)).trans (first.agrees name member)

/-- Two runs stand at two supplies, one of which lags behind the other. The permutation takes the names that it
is kept on, which are taken ahead, to names that are taken behind, and the code of the run ahead to the code
of the run behind. -/
structure Mirrors (pairing : Pairing) (ahead behind : Supply) (code copy : List Instruction) : Prop where
  lags : behind.Behind ahead
  taken : pairing.used ⊆ ahead.taken
  image : ∀ name ∈ pairing.used, pairing.permutation.name name ∈ behind.taken
  names : namesIn code ⊆ pairing.used
  copied : copy = code.map pairing.permutation.instruction

theorem Extends.map_instruction (extended : larger.Extends pairing) (names : namesIn code ⊆ pairing.used) :
    code.map larger.permutation.instruction = code.map pairing.permutation.instruction :=
  Permutation.map_instruction_congr fun name occurs => extended.agrees name (names occurs)

/-- Other code for the same supplies. -/
theorem Mirrors.part (mirrors : pairing.Mirrors ahead behind code copy) {other otherCopy : List Instruction}
    (names : namesIn other ⊆ pairing.used) (copied : otherCopy = other.map pairing.permutation.instruction) :
    pairing.Mirrors ahead behind other otherCopy :=
  { mirrors with names, copied }

/-- Code that was there before stands beside code that was derived later. -/
theorem Mirrors.append {earlier earlierCopy : List Instruction}
    (mirrors : larger.Mirrors ahead behind code copy) (extended : larger.Extends pairing)
    (names : namesIn earlier ⊆ pairing.used)
    (copied : earlierCopy = earlier.map pairing.permutation.instruction) :
    larger.Mirrors ahead behind (earlier ++ code) (earlierCopy ++ copy) := by
  refine mirrors.part ?_ ?_
  · rw [namesIn_append]
    exact Set.union_subset (names.trans extended.used) mirrors.names
  · rw [List.map_append, extended.map_instruction names, copied, mirrors.copied]

/-! ### Rounds -/

variable {registry : Registry} {instruction other : Instruction} {tree : Derivation} {rounds : Nat}

/-- One round in both runs: the permutation is extended to the names of the block. -/
theorem Mirrors.expansion
    (covered : ∀ {name : String} {callee : Routine}, registry[name]? = some callee → callee.Covered)
    (mirrors : pairing.Mirrors ahead behind [instruction] [other]) (synthetic : instruction.isBasic = false)
    {body : List Instruction} (expanded : instruction.operation.expansion registry ahead = .ok (body, next)) :
    ∃ otherBody last larger, other.operation.expansion registry behind = .ok (otherBody, last) ∧
      Extends larger pairing ∧
      larger.Mirrors next last (labelFirst instruction.label body) (labelFirst other.label otherBody) := by
  obtain rfl : other = pairing.permutation.instruction instruction := by simpa using mirrors.copied
  obtain ⟨otherBody, last, otherExpanded, lags⟩ :=
    (Fresh.Follows.expansion registry pairing.permutation instruction.operation).run mirrors.lags expanded
  obtain ⟨draft, stands, draws⟩ := Operation.expansion_ok synthetic expanded
  have alsoSynthetic := (pairing.permutation.isBasic_instruction instruction).trans synthetic
  obtain ⟨otherDraft, otherStands, otherDraws⟩ := Operation.expansion_ok alsoSynthetic otherExpanded
  have occurs : ∀ name ∈ instruction.names, name ∈ pairing.used := fun name inNames =>
    mirrors.names ⟨instruction, List.mem_singleton_self _, inNames⟩
  have otherAvoids : otherDraft.Avoids (pairing.permutation.name '' pairing.used) := by
    refine otherDraws.avoids.mono ?_
    rintro _ _ ⟨name, inUse, rfl⟩
    exact mirrors.image name inUse
  obtain ⟨changed, agrees, drawn, blocks⟩ := exists_permutation_block covered occurs stands
    (draws.avoids.mono fun name _ inUse => mirrors.taken inUse) otherStands otherAvoids
  refine ⟨otherBody, last, ⟨changed, pairing.used ∪ { name | name ∈ draft.names }⟩, otherExpanded,
    ⟨Set.subset_union_left, agrees⟩, ?_⟩
  exact {
    lags
    taken := by
      rw [draws.taken]
      exact Set.union_subset_union_left _ mirrors.taken
    image := by
      rw [otherDraws.taken]
      rintro name (inUse | inDraft)
      · rw [agrees name inUse]
        exact .inl (mirrors.image name inUse)
      · right
        rw [← drawn]
        exact changed.name_mem_draft inDraft
    names := by
      refine (Instruction.names_unfolded_subset stands covered draws.avoids.named).trans ?_
      exact Set.union_subset_union_left _ occurs
    copied := blocks }

/-- What holds of one instruction in both runs holds of a list of instructions. -/
theorem Mirrors.mapM
    (one : ∀ {pairing : Pairing} {ahead behind next : Supply} {instruction other : Instruction}
      {tree : Derivation}, pairing.Mirrors ahead behind [instruction] [other] →
      instruction.derive registry (rounds + 1) ahead = .ok (tree, next) →
      ∃ otherTree last larger, other.derive registry rounds behind = .ok (otherTree, last) ∧
        Extends larger pairing ∧ larger.Mirrors next last (tree.prune rounds).code otherTree.code)
    (mirrors : pairing.Mirrors ahead behind code copy) {trees : List Derivation}
    (derived : code.mapM (Instruction.derive registry (rounds + 1)) ahead = .ok (trees, next)) :
    ∃ otherTrees last larger,
      copy.mapM (Instruction.derive registry rounds) behind = .ok (otherTrees, last) ∧
      Extends larger pairing ∧
      larger.Mirrors next last ((trees.map (Derivation.prune rounds)).flatMap Derivation.code)
        (otherTrees.flatMap Derivation.code) := by
  induction code generalizing pairing ahead behind copy trees with
  | nil =>
      obtain rfl : copy = [] := mirrors.copied
      rw [List.mapM_nil] at derived ⊢
      obtain ⟨rfl, rfl⟩ := Fresh.pure_ok derived
      exact ⟨[], behind, pairing, rfl, .refl pairing, mirrors⟩
  | cons instruction rest ih =>
      obtain rfl := mirrors.copied
      rw [List.mapM_cons] at derived
      obtain ⟨tree, middle, first, derived⟩ := Fresh.bind_ok derived
      obtain ⟨others, final, later, derived⟩ := Fresh.bind_ok derived
      obtain ⟨rfl, rfl⟩ := Fresh.pure_ok derived
      have names := mirrors.names
      rw [namesIn_cons, Set.union_subset_iff] at names
      obtain ⟨firstTree, between, firstPairing, firstDerived, firstExtends, firstMirrors⟩ :=
        one (mirrors.part (by simpa using names.1) rfl) first
      -- The rest has its copy under the extended permutation too.
      have restMirrors : firstPairing.Mirrors middle between rest
          (rest.map pairing.permutation.instruction) :=
        firstMirrors.part (names.2.trans firstExtends.used) (firstExtends.map_instruction names.2).symm
      obtain ⟨otherTrees, last, larger, laterDerived, laterExtends, laterMirrors⟩ := ih restMirrors later
      refine ⟨firstTree :: otherTrees, last, larger, ?_, laterExtends.trans firstExtends, ?_⟩
      · rw [List.map_cons, List.mapM_cons, Fresh.bind_of_ok firstDerived, Fresh.bind_of_ok laterDerived]
        rfl
      · exact laterMirrors.append laterExtends firstMirrors.names firstMirrors.copied

/-- One round more than in the other run yields, cut at the number of rounds of the other run, what that run
yields. -/
theorem Mirrors.derive
    (covered : ∀ {name : String} {callee : Routine}, registry[name]? = some callee → callee.Covered)
    (rounds : Nat) (mirrors : pairing.Mirrors ahead behind [instruction] [other])
    (derived : instruction.derive registry (rounds + 1) ahead = .ok (tree, next)) :
    ∃ otherTree last larger, other.derive registry rounds behind = .ok (otherTree, last) ∧
      Extends larger pairing ∧ larger.Mirrors next last (tree.prune rounds).code otherTree.code := by
  induction rounds generalizing pairing ahead behind next instruction other tree with
  | zero =>
      -- The run behind has come to its end. The run ahead draws the names of one more block alone.
      have root := (Instruction.derive_ok derived).1
      refine ⟨.leaf _, behind, pairing, rfl, .refl pairing, ?_⟩
      rw [Derivation.prune_zero, root, Derivation.code_leaf, Derivation.code_leaf]
      exact { mirrors with
        lags := (instruction.derive_staysAhead 1).run mirrors.lags derived
        taken := mirrors.taken.trans (Instruction.derive_grows derived) }
  | succ rounds ih =>
      have alike : other.isBasic = instruction.isBasic := by
        obtain rfl : other = pairing.permutation.instruction instruction := by simpa using mirrors.copied
        exact pairing.permutation.isBasic_instruction instruction
      cases basic : instruction.isBasic with
      | true =>
          rw [Instruction.derive_basic basic] at derived
          rw [Instruction.derive_basic (alike.trans basic)]
          obtain ⟨rfl, rfl⟩ := Fresh.pure_ok derived
          refine ⟨_, behind, pairing, rfl, .refl pairing, ?_⟩
          rw [Derivation.prune_leaf, Derivation.code_leaf, Derivation.code_leaf]
          exact mirrors
      | false =>
          rw [Instruction.derive_synthetic basic] at derived
          rw [Instruction.derive_synthetic (alike.trans basic)]
          obtain ⟨body, middle, expanded, derived⟩ := Fresh.bind_ok derived
          obtain ⟨children, final, childrenDerived, derived⟩ := Fresh.bind_ok derived
          obtain ⟨rfl, rfl⟩ := Fresh.pure_ok derived
          obtain ⟨otherBody, between, blockPairing, otherExpanded, blockExtends, blockMirrors⟩ :=
            mirrors.expansion covered basic expanded
          obtain ⟨otherChildren, last, larger, otherDerived, extended, childrenMirror⟩ :=
            blockMirrors.mapM ih childrenDerived
          refine ⟨.node other otherChildren, last, larger, ?_, extended.trans blockExtends, ?_⟩
          · rw [Fresh.bind_of_ok otherExpanded, Fresh.bind_of_ok otherDerived]
            rfl
          · rw [Derivation.prune_node, Derivation.code_node, Derivation.code_node]
            exact childrenMirror

end Pairing

/-! ## Routines -/

namespace Routine

variable {registry : Registry} {definition : Definition} {routine next : Routine} {rounds : Nat}

theorem derivations_all (routine : Routine) (registry : Registry) (rounds : Nat) :
    routine.derivations registry rounds (fun _ => true) =
      routine.instructions.mapM (Instruction.derive registry rounds) := by
  conv_rhs => rw [← List.zipIdx_map_fst 0 routine.instructions, List.mapM_map]
  rfl

theorem expand_of_derivations (consistent : routine.Consistent definition) {trees : List Derivation}
    {supply : Supply}
    (derived : routine.instructions.mapM (Instruction.derive registry rounds) routine.supply =
      .ok (trees, supply)) :
    ∃ next, routine.expand registry rounds = .ok next ∧
      next.instructions = trees.flatMap Derivation.code := by
  rw [← derivations_all] at derived
  have expanded : ∃ next, routine.expand registry rounds = .ok next := by
    rw [expand, expandSelected, StateT.run, derived]
    exact ⟨_, rfl⟩
  obtain ⟨next, expanded⟩ := expanded
  obtain ⟨_, others, last, again, instructions⟩ := consistent.expandSelected expanded
  cases derived.symm.trans again
  exact ⟨next, expanded, instructions⟩

/-- A collapsed expansion of source instructions consists of their trees, cut one level higher. -/
theorem instructions_collapse_expand (consistent : routine.Consistent definition)
    (distinct : routine.sequence.Nodup) (flat : routine.maxDepth = 0)
    (expanded : routine.expand registry (rounds + 1) = .ok next) (reached : next.maxDepth = rounds + 1) :
    ∃ trees supply,
      routine.instructions.mapM (Instruction.derive registry (rounds + 1)) routine.supply =
        .ok (trees, supply) ∧
      next.collapse.instructions = (trees.map (Derivation.prune rounds)).flatMap Derivation.code := by
  obtain ⟨news, supply, draft, grown, derived, drawn, _⟩ :=
    expandSelected_grown consistent.ordered consistent.present expanded
  rw [derivations_all] at derived
  refine ⟨_, supply, derived, ?_⟩
  have sources : ∀ branch ∈ news, ∃ node, next.forest.get? branch.id = some node ∧ node.depth = 0 := by
    intro branch member
    obtain ⟨node, found⟩ := consistent.present branch.id (grown.old member)
    have bound := depth_le_maxDepth (grown.old member) found
    exact ⟨node, grown.within found, by omega⟩
  let here (id : Nat) := (next.forest.get? id).any fun node => node.depth + 1 = next.maxDepth
  have replaced : ∀ branch ∈ news,
      branch.Replaced here (next.parentAtDepth? next.maxDepth) := by
    intro branch member
    obtain ⟨node, found, depth⟩ := sources branch member
    refine Branch.replaced_deepest (grown.held branch member)
      (Branch.full_of_unfolded (drawn.unfolded _ (List.mem_map_of_mem member))) found (by omega) ?_
    intro leaf inBranch bottom bottomFound
    refine depth_le_maxDepth ?_ bottomFound
    rw [grown.sequence]
    exact List.mem_flatMap_of_mem member inBranch
  have sequence : replaceTogether (next.parentAtDepth? next.maxDepth) next.sequence [] =
      (news.map (Branch.cut here)).flatMap Branch.leaves := by
    rw [grown.sequence]
    exact Branch.replaceTogether_leaves (grown.distinct distinct) replaced
  calc next.collapse.instructions
    _ = (((news.map (Branch.cut here)).flatMap Branch.leaves).filterMap next.forest.get?).map
          Node.instruction := by
        rw [collapse_of_expanded (by omega), ← sequence]
        rfl
    _ = ((news.map (Branch.cut here)).map Branch.derivation).flatMap Derivation.code := by
        refine Branch.filterMap_leaves fun branch trimmed => ?_
        obtain ⟨original, member, rfl⟩ := List.mem_map.mp trimmed
        exact (grown.held original member).cut
    _ = ((news.map Branch.derivation).map (Derivation.prune rounds)).flatMap Derivation.code := by
        rw [List.map_map, List.map_map]
        congr 1
        refine List.map_congr_left fun branch member => ?_
        obtain ⟨node, found, depth⟩ := sources branch member
        exact (grown.held branch member).derivation_cut found (by omega)

/-- Before any name is drawn, nothing has to be permuted. -/
theorem mirrors_self (routine : Routine) :
    Pairing.Mirrors ⟨.identity, routine.supply.taken⟩ routine.supply routine.supply routine.instructions
      routine.instructions where
  lags := .refl _
  taken := fun _ taken => taken
  image := by
    intro name taken
    rw [Permutation.name_identity]
    exact taken
  names := routine.taken_supply
  copied := by
    rw [funext Permutation.instruction_identity]
    exact (List.map_id _).symm

/-- Collapse peels exactly one level. It lowers the depth of an expanded routine by one; and if an expansion
of source instructions reaches the depth of its rounds, then collapsing it once yields the instructions of
an expansion for one round less, which succeeds too, up to a permutation of the labels and work variables
that are not in use in the source. -/
theorem collapse_peels_one_level (becomes : definition.Becomes (fun _ => True) routine) :
    (routine.maxDepth ≠ 0 → routine.collapse.maxDepth + 1 = routine.maxDepth) ∧
    (routine.maxDepth = 0 → ∀ (registry : Registry),
      (∀ (name : String) (function : Routine), registry[name]? = some function →
        ∃ source, function = .ofDefinition source) →
      ∀ (rounds : Nat) (deeper : Routine), routine.expand registry (rounds + 1) = .ok deeper →
        deeper.maxDepth = rounds + 1 →
        ∃ shallower, routine.expand registry rounds = .ok shallower ∧
          ∃ permutation : Permutation,
            (∀ label ∈ routine.labelsInUse, permutation.labels label = label) ∧
            (∀ name ∈ routine.varsInUse, permutation.vars name = name) ∧
            deeper.collapse.instructions.map permutation.instruction = shallower.instructions) := by
  have consistent := becomes.consistent
  refine ⟨maxDepth_collapse consistent.ordered, ?_⟩
  intro flat registry built rounds deeper expanded reached
  have covered : ∀ {name : String} {callee : Routine}, registry[name]? = some callee → callee.Covered := by
    intro name callee found
    obtain ⟨source, rfl⟩ := built name callee found
    exact covered_ofDefinition source
  obtain ⟨trees, supply, derived, collapsed⟩ :=
    instructions_collapse_expand consistent becomes.discerned.nodup flat expanded reached
  obtain ⟨otherTrees, last, larger, otherDerived, extended, mirrors⟩ :=
    routine.mirrors_self.mapM (fun here ran => here.derive covered rounds ran) derived
  obtain ⟨shallower, otherExpanded, instructions⟩ := expand_of_derivations consistent otherDerived
  have fixed : ∀ name ∈ routine.supply.taken, larger.permutation.name name = name := fun name taken =>
    (extended.agrees name taken).trans (Permutation.name_identity name)
  refine ⟨shallower, otherExpanded, larger.permutation, ?_, ?_, ?_⟩
  · exact fun label inUse => Name.label.inj (fixed (.label label) inUse)
  · exact fun name inUse => Name.var.inj (fixed (.var name) inUse)
  · rw [collapsed, instructions, mirrors.copied]

end Routine

/-- Two calls: what is drawn below the first comes before the names of the second. -/
def callsTwiceAndNext : Definition :=
  ⟨"Main", [.plain (.quote .result ⟨"Twice", [.var (.input 1)]⟩),
    .plain (.quote .result ⟨"Next", [.var .result]⟩)]⟩

theorem Routine.callsTwiceAndNext_peels_one_level :
    let routine := ofDefinition callsTwiceAndNext
    let deeper := routine.act nextAndTwice (.expand 2)
    routine.expand nextAndTwice 2 = .ok deeper ∧ deeper.maxDepth = 2 ∧ deeper.collapse.maxDepth = 1 ∧
    ∃ shallower, routine.expand nextAndTwice 1 = .ok shallower ∧
      deeper.collapse.instructions ≠ shallower.instructions ∧
      ∃ permutation : Permutation, (∀ name ∈ routine.varsInUse, permutation.vars name = name) ∧
        deeper.collapse.instructions.map permutation.instruction = shallower.instructions := by
  intro routine deeper
  have unchanged : callsTwiceAndNext.Becomes (fun _ => True) routine := .source
  have becomes : callsTwiceAndNext.Becomes (fun _ => True) deeper := .act unchanged trivial nextAndTwice
  have built : ∀ (name : String) (function : Routine), nextAndTwice[name]? = some function →
      ∃ source, function = .ofDefinition source := by
    intro name function found
    rcases getElem?_nextAndTwice.mp found with ⟨_, rfl⟩ | ⟨_, rfl⟩
    · exact ⟨_, rfl⟩
    · exact ⟨_, rfl⟩
  have act_of_ok : ∀ {rounds next}, routine.expand nextAndTwice rounds = .ok next →
      routine.act nextAndTwice (.expand rounds) = next := by
    intro rounds next expanded
    rw [act, expanded]
    rfl
  have succeeds : (routine.expand nextAndTwice 2).isOk = true := by decide +kernel
  have depth : deeper.maxDepth = 2 := by decide +kernel
  have differs : deeper.collapse.instructions ≠ (routine.act nextAndTwice (.expand 1)).instructions := by
    decide +kernel
  cases expanded : routine.expand nextAndTwice 2 with
  | error failure =>
      rw [expanded] at succeeds
      cases succeeds
  | ok next =>
      obtain rfl : deeper = next := act_of_ok expanded
      have lower := (collapse_peels_one_level becomes).1 (by rw [depth]; decide)
      obtain ⟨shallower, one, permutation, _, fixed, same⟩ := (collapse_peels_one_level unchanged).2
        (maxDepth_ofDefinition _) nextAndTwice built 1 deeper expanded depth
      refine ⟨rfl, depth, by omega, shallower, one, ?_, permutation, fixed, same⟩
      rwa [act_of_ok one] at differs

end CounterMachine
