import CounterMachine.Proofs.Alive
set_option autoImplicit false

/-!
# Signatures as keys

The signature of a child continues that of its parent by its ordinal, so signatures part where the ways to
two nodes part. Of two living nodes, one was therefore derived from the other, or neither signature is an
initial part of the other. The nodes of a sequence are not derived from each other: their signatures differ,
and a signature finds its own node. A handle has no colon and is never taken for a signature.
-/

namespace CounterMachine

/-! ## Texts of signatures -/

namespace Signature

/-- Neither text is an initial part of the other. -/
def Diverges (left right : Signature) : Prop :=
  ¬left.text.toList <+: right.text.toList ∧ ¬right.text.toList <+: left.text.toList

variable {left right longer other : Signature}

theorem Diverges.symm (diverges : left.Diverges right) : right.Diverges left :=
  ⟨diverges.2, diverges.1⟩

theorem Diverges.ne (diverges : left.Diverges right) : left.text ≠ right.text := by
  intro same
  exact diverges.1 (same ▸ List.prefix_rfl)

/-- Texts that have parted stay apart however they go on. -/
theorem Diverges.continued (diverges : left.Diverges right)
    (first : left.text.toList <+: longer.text.toList) (second : right.text.toList <+: other.text.toList) :
    longer.Diverges other := by
  have comparable {whole : List Char} (atLeft : left.text.toList <+: whole)
      (atRight : right.text.toList <+: whole) : False := by
    rcases List.prefix_or_prefix_of_prefix atLeft atRight with shorter | shorter
    · exact diverges.1 shorter
    · exact diverges.2 shorter
  exact ⟨fun within => comparable (first.trans within) second,
    fun within => comparable first (second.trans within)⟩

theorem eq_of_prefix_colon {left right more other : List Char} (atLeft : ':' ∉ left)
    (atRight : ':' ∉ right) (within : left ++ ':' :: more <+: right ++ ':' :: other) : left = right := by
  have upToColon {part rest : List Char} (free : ':' ∉ part) :
      (part ++ ':' :: rest).takeWhile (· ≠ ':') = part := by
    rw [List.takeWhile_append_of_pos]
    · simp
    · intro c member
      exact decide_eq_true fun same => free (same ▸ member)
  obtain ⟨rest, same⟩ := within
  rw [List.append_assoc, List.cons_append] at same
  rw [← upToColon atLeft, same, upToColon atRight]

theorem colon_not_mem_toDigits (ordinal : Nat) : ':' ∉ Nat.toDigits 10 ordinal := by
  intro member
  have digit := Nat.isDigit_of_mem_toDigits (by decide) (by decide) member
  exact absurd digit (by decide)

/-- A link starts with its ordinal and a colon. -/
theorem toList_link (ordinal : Nat) (instruction : Instruction) :
    ∃ rest, (link ordinal instruction).toList = Nat.toDigits 10 ordinal ++ ':' :: rest := by
  refine ⟨(instruction.kind.mnemonic ++ "[" ++ instruction.label.render ++ "] " ++
    instruction.render).toList, ?_⟩
  simp [link, Nat.toList_repr]

theorem eq_of_prefix_link {left right : Nat} {first second : Instruction}
    (within : (link left first).toList <+: (link right second).toList) : left = right := by
  obtain ⟨more, atLeft⟩ := toList_link left first
  obtain ⟨other, atRight⟩ := toList_link right second
  rw [atLeft, atRight] at within
  have digits := eq_of_prefix_colon (colon_not_mem_toDigits left) (colon_not_mem_toDigits right) within
  have read := congrArg Text.Decimal.read? digits
  rw [Text.Decimal.read?_toDigits, Text.Decimal.read?_toDigits] at read
  exact Option.some.inj read

theorem toList_child (parent : Signature) (ordinal : Nat) (instruction : Instruction) :
    (parent.child ordinal instruction).text.toList =
      parent.text.toList ++ " > ".toList ++ (link ordinal instruction).toList := by
  rw [child, String.toList_append, String.toList_append]

theorem prefix_child (parent : Signature) (ordinal : Nat) (instruction : Instruction) :
    parent.text.toList <+: (parent.child ordinal instruction).text.toList := by
  rw [toList_child, List.append_assoc]
  exact List.prefix_append _ _

theorem diverges_child (parent : Signature) {left right : Nat} (different : left ≠ right)
    (first second : Instruction) : (parent.child left first).Diverges (parent.child right second) := by
  rw [Diverges, toList_child, toList_child, List.prefix_append_right_inj, List.prefix_append_right_inj]
  exact ⟨fun within => different (eq_of_prefix_link within),
    fun within => different (eq_of_prefix_link within).symm⟩

theorem diverges_root {left right : Nat} (different : left ≠ right) (first second : Instruction) :
    (root left first).Diverges (root right second) :=
  ⟨fun within => different (eq_of_prefix_link within),
    fun within => different (eq_of_prefix_link within).symm⟩

theorem colon_mem_root (position : Nat) (instruction : Instruction) :
    ':' ∈ (root position instruction).text.toList := by
  obtain ⟨rest, text⟩ := toList_link position instruction
  rw [root, text]
  simp

theorem colon_not_mem_hexadecimal (byte : UInt8) : ':' ∉ Digest.hexadecimal byte := by
  have digit : ∀ value < 16, Nat.digitChar value ≠ ':' := by decide
  have below := byte.toNat_lt
  intro member
  rw [Digest.hexadecimal, List.mem_cons, List.mem_singleton] at member
  rcases member with same | same
  · exact digit (byte.toNat / 16) (by omega) same.symm
  · exact digit (byte.toNat % 16) (by omega) same.symm

theorem colon_not_mem_digest (signature : Signature) : ':' ∉ signature.digest.toList := by
  rw [digest, Digest.handle, String.toList_ofList, List.mem_flatMap]
  rintro ⟨byte, _, member⟩
  exact colon_not_mem_hexadecimal byte member

end Signature

/-! ## Signatures in a branch -/

namespace Branch

variable {forest : Forest} {branch : Branch}

theorem In.prefix_signature (held : branch.In forest) {id : Nat} {first node : Node}
    (atFirst : forest.get? branch.id = some first) (member : id ∈ branch.ids)
    (found : forest.get? id = some node) :
    first.signature.text.toList <+: node.signature.text.toList := by
  induction held generalizing first with
  | leaf _ =>
      rw [ids_leaf, List.mem_singleton] at member
      subst member
      obtain rfl : first = node := Option.some.inj (atFirst.symm.trans found)
      exact List.prefix_rfl
  | @node place origin children originFound linked _ ih =>
      obtain rfl : first = origin := Option.some.inj (atFirst.symm.trans originFound)
      rw [ids_node, List.mem_cons, List.mem_flatMap] at member
      rcases member with rfl | ⟨child, inChildren, member⟩
      · obtain rfl : first = node := Option.some.inj (atFirst.symm.trans found)
        exact List.prefix_rfl
      · obtain ⟨ordinal, here⟩ := List.mem_iff_getElem?.mp inChildren
        have later := ih child inChildren (linked here) member
        exact (first.signature.prefix_child ordinal child.instruction).trans later

/-- Of two nodes of a branch, one was derived from the other, or their signatures part. -/
theorem In.discern (held : branch.In forest) (ordered : forest.Ordered) {left right : Nat}
    {first second : Node} (atLeft : left ∈ branch.ids) (atRight : right ∈ branch.ids)
    (leftFound : forest.get? left = some first) (rightFound : forest.get? right = some second) :
    forest.Above left right ∨ forest.Above right left ∨
      first.signature.Diverges second.signature := by
  induction held with
  | leaf _ =>
      rw [ids_leaf, List.mem_singleton] at atLeft atRight
      exact .inl (.inl (atLeft.trans atRight.symm))
  | @node place origin children originFound linked inner ih =>
      have whole := In.node originFound linked inner
      rcases List.mem_cons.mp (ids_node _ _ _ ▸ atLeft) with rfl | inLeft
      · exact .inl (whole.above ordered atRight)
      · rcases List.mem_cons.mp (ids_node _ _ _ ▸ atRight) with rfl | inRight
        · exact .inr (.inl (whole.above ordered atLeft))
        · obtain ⟨child, inChildren, atLeft⟩ := List.mem_flatMap.mp inLeft
          obtain ⟨other, alsoInChildren, atRight⟩ := List.mem_flatMap.mp inRight
          obtain ⟨ordinal, here⟩ := List.mem_iff_getElem?.mp inChildren
          obtain ⟨place, there⟩ := List.mem_iff_getElem?.mp alsoInChildren
          by_cases same : ordinal = place
          · subst same
            obtain rfl : child = other := Option.some.inj (here.symm.trans there)
            exact ih child inChildren atLeft atRight
          · refine .inr (.inr ?_)
            have parted := origin.signature.diverges_child same child.instruction other.instruction
            have first := (inner child inChildren).prefix_signature (linked here) atLeft leftFound
            have second :=
              (inner other alsoInChildren).prefix_signature (linked there) atRight rightFound
            exact parted.continued first second

end Branch

/-! ## Collapsed sequences -/

theorem nodup_replaceTogether {replacement : Nat → Option Nat} {sequence seen : List Nat}
    (distinct : sequence.Nodup)
    (outside : ∀ id ∈ sequence, ∀ parent, replacement id = some parent → parent ∉ sequence) :
    (replaceTogether replacement sequence seen).Nodup := by
  induction sequence generalizing seen with
  | nil => exact List.nodup_nil
  | cons first rest ih =>
      rw [List.nodup_cons] at distinct
      have others : ∀ {tried : List Nat}, (replaceTogether replacement rest tried).Nodup :=
        ih distinct.2 fun id member parent replaced inRest =>
          outside id (List.mem_cons_of_mem _ member) parent replaced (List.mem_cons_of_mem _ inRest)
      rw [replaceTogether]
      cases replaced : replacement first with
      | none =>
          refine List.nodup_cons.mpr ⟨fun again => ?_, others⟩
          rcases mem_replaceTogether.mp again with ⟨kept, _⟩ | ⟨_, other, inRest, same⟩
          · exact distinct.1 kept
          · exact outside other (List.mem_cons_of_mem _ inRest) first same List.mem_cons_self
      | some parent =>
          dsimp only
          split
          · exact others
          · refine List.nodup_cons.mpr ⟨fun again => ?_, others⟩
            rcases mem_replaceTogether.mp again with ⟨kept, _⟩ | ⟨unseen, _⟩
            · exact outside first List.mem_cons_self parent replaced (List.mem_cons_of_mem _ kept)
            · exact unseen List.mem_cons_self

/-! ## Routines -/

namespace Routine

variable {registry : Registry} {definition : Definition} {routine next : Routine}

/-- No node of the sequence is there twice or was derived from another, and the signatures of living nodes
part unless one of them was derived from the other. -/
structure Discerned (routine : Routine) : Prop where
  nodup : routine.sequence.Nodup
  apart : ∀ {left right}, left ∈ routine.sequence → right ∈ routine.sequence →
    left ∉ routine.forest.ancestors right
  discern : ∀ {left right first second}, routine.Alive left → routine.Alive right →
    routine.forest.get? left = some first → routine.forest.get? right = some second →
    routine.forest.Above left right ∨ routine.forest.Above right left ∨
      first.signature.Diverges second.signature
  colon : ∀ {id node}, routine.forest.get? id = some node → ':' ∈ node.signature.text.toList

theorem discerned_ofDefinition (definition : Definition) : (ofDefinition definition).Discerned := by
  have roots : ∀ {id node}, (ofDefinition definition).forest.get? id = some node →
      ∃ instruction, node = .root id instruction := by
    intro id node found
    change (Forest.ofRoots definition.body).get? id = some node at found
    simp only [Forest.ofRoots, Forest.get?, List.getElem?_toArray, List.getElem?_map,
      Option.map_eq_some_iff, List.getElem?_zipIdx] at found
    obtain ⟨pair, ⟨instruction, _, rfl⟩, rfl⟩ := found
    exact ⟨instruction, by rw [Nat.zero_add]⟩
  refine ⟨List.nodup_range, ?_, ?_, ?_⟩
  · intro left right atLeft atRight above
    obtain ⟨node, found⟩ := (Frontier.ofDefinition ∅ definition).present right atRight
    obtain ⟨instruction, rfl⟩ := roots found
    rw [Forest.ancestors_root found rfl] at above
    cases above
  · intro left right first second _ _ leftFound rightFound
    obtain ⟨leftInstruction, rfl⟩ := roots leftFound
    obtain ⟨rightInstruction, rfl⟩ := roots rightFound
    by_cases same : left = right
    · exact .inl (.inl same)
    · exact .inr (.inr (Signature.diverges_root same _ _))
  · intro id node found
    obtain ⟨instruction, rfl⟩ := roots found
    exact Signature.colon_mem_root id instruction

theorem Discerned.sameCode (discerned : routine.Discerned) (same : routine.SameCode next) :
    next.Discerned where
  nodup := same.sequence ▸ discerned.nodup
  apart := by
    rw [same.sequence, same.forest]
    exact discerned.apart
  discern := by
    intro left right first second leftAlive rightAlive
    rw [same.forest]
    exact discerned.discern (same.alive leftAlive) (same.alive rightAlive)
  colon := by
    rw [same.forest]
    exact discerned.colon

/-! ### Collapse -/

/-- Members of a sequence give way to nodes above them. Whatever is below such a node gives way too, and no
two of these nodes are below each other. -/
theorem Discerned.replaceTogether (discerned : routine.Discerned) {replacement : Nat → Option Nat}
    (above : ∀ id parent, replacement id = some parent → parent ∈ routine.forest.ancestors id)
    (below : ∀ id parent other, replacement id = some parent → other ∈ routine.sequence →
      parent ∈ routine.forest.ancestors other → replacement other ≠ none)
    (level : ∀ id parent other upper, replacement id = some parent → replacement other = some upper →
      parent ∉ routine.forest.ancestors upper) :
    (refresh { routine with
      sequence := replaceTogether replacement routine.sequence [] }).Discerned where
  nodup := nodup_replaceTogether discerned.nodup fun id member parent replaced inSequence =>
    discerned.apart inSequence member (above id parent replaced)
  apart := by
    intro left right atLeft atRight higher
    rcases mem_replaceTogether.mp atLeft with ⟨leftKept, _⟩ | ⟨_, leftOrigin, _, leftReplaced⟩
    · rcases mem_replaceTogether.mp atRight with ⟨rightKept, _⟩ | ⟨_, origin, inSequence, replaced⟩
      · exact discerned.apart leftKept rightKept higher
      · exact discerned.apart leftKept inSequence
          (Forest.mem_ancestors_trans higher (above origin right replaced))
    · rcases mem_replaceTogether.mp atRight with ⟨rightKept, none⟩ | ⟨_, origin, _, replaced⟩
      · exact below leftOrigin left right leftReplaced rightKept higher none
      · exact level leftOrigin left origin right leftReplaced replaced higher
  discern := by
    intro left right first second leftAlive rightAlive
    have higher : ∀ id parent, replacement id = some parent → routine.forest.Above parent id :=
      fun id parent replaced => .inr (above id parent replaced)
    exact discerned.discern (alive_of_replaceTogether higher leftAlive)
      (alive_of_replaceTogether higher rightAlive)
  colon := discerned.colon

theorem Discerned.collapse (discerned : routine.Discerned)
    (consistent : routine.Consistent definition) : routine.collapse.Discerned := by
  have ordered := consistent.ordered
  unfold Routine.collapse
  dsimp only
  split
  · exact discerned
  · next expanded =>
      -- A replaced node is a deepest one, and its replacement is one level above.
      refine discerned.replaceTogether (fun _ _ replaced => (parentAtDepth?_some ordered replaced).1) ?_ ?_
      · intro id parent other replaced member higher
        obtain ⟨_, origin, originFound, depth⟩ := parentAtDepth?_some ordered replaced
        obtain ⟨node, found⟩ := consistent.present other member
        have lower := ordered.depth_lt higher originFound found
        have atMost := depth_le_maxDepth member found
        exact parentAtDepth?_ne_none ordered found (by omega) expanded
      · intro id parent other upper replaced alsoReplaced higher
        obtain ⟨_, origin, originFound, depth⟩ := parentAtDepth?_some ordered replaced
        obtain ⟨_, second, secondFound, sameDepth⟩ := parentAtDepth?_some ordered alsoReplaced
        have lower := ordered.depth_lt higher originFound secondFound
        omega

theorem Discerned.collapseSingle (discerned : routine.Discerned) {key : String}
    (collapsed : routine.collapseSingle key = .ok next) : next.Discerned := by
  rcases collapseSingle_ok collapsed with rfl | ⟨_, parent, _, _, _, _, rfl⟩
  · exact discerned
  · refine discerned.replaceTogether ?_ ?_ ?_
    · intro id upper replaced
      obtain ⟨rfl, above⟩ := above_of_descends replaced
      exact above
    · intro id upper other replaced _ higher
      obtain ⟨rfl, _⟩ := above_of_descends replaced
      rw [Forest.descends, List.contains_iff_mem.mpr higher, if_pos rfl]
      exact Option.some_ne_none _
    · intro id first other second replaced alsoReplaced higher
      obtain ⟨rfl, _⟩ := above_of_descends replaced
      obtain ⟨rfl, _⟩ := above_of_descends alsoReplaced
      exact Nat.lt_irrefl _ (Forest.lt_of_mem_ancestors higher)

/-! ### Expansion -/

section Grown

variable {news : List Branch}

/-- A living node of an expanded routine is in the branch of a node of the old sequence, or above such a
node. -/
theorem Grown.alive (grown : routine.Grown next news) (consistent : routine.Consistent definition)
    {id : Nat} (alive : next.Alive id) :
    ∃ branch ∈ news, id ∈ branch.ids ∨ id ∈ routine.forest.ancestors branch.id := by
  obtain ⟨leaf, member, above⟩ := alive
  rw [grown.sequence, List.mem_flatMap] at member
  obtain ⟨branch, inNews, member⟩ := member
  refine ⟨branch, inNews, ?_⟩
  rcases above with rfl | above
  · exact .inl (branch.leaves_subset_ids member)
  · rcases (grown.held branch inNews).ancestors_leaf grown.ordered member above with outside | inner
    · obtain ⟨node, found⟩ := consistent.present branch.id (grown.old inNews)
      rw [consistent.ordered.ancestors_within grown.within found] at outside
      exact .inr outside
    · exact .inl (branch.ids_perm.mem_iff.mpr (List.mem_append_left _ inner))

theorem Grown.above (grown : routine.Grown next news) (consistent : routine.Consistent definition)
    {upper lower : Nat} {node : Node} (found : routine.forest.get? lower = some node)
    (above : routine.forest.Above upper lower) : next.forest.Above upper lower := by
  rw [Forest.Above, consistent.ordered.ancestors_within grown.within found]
  exact above

theorem Grown.apart (grown : routine.Grown next news) (consistent : routine.Consistent definition)
    (discerned : routine.Discerned) {left right : Nat} (atLeft : left ∈ next.sequence)
    (atRight : right ∈ next.sequence) : left ∉ next.forest.ancestors right := by
  intro above
  rw [grown.sequence, List.mem_flatMap] at atLeft atRight
  obtain ⟨first, inNews, atLeft⟩ := atLeft
  obtain ⟨second, alsoInNews, atRight⟩ := atRight
  have distinct := grown.distinct discerned.nodup
  rcases (grown.held second alsoInNews).ancestors_leaf grown.ordered atRight above with outside | inner
  · -- The upper node is an old one, so it is where its branch starts.
    obtain ⟨node, found⟩ := consistent.present second.id (grown.old alsoInNews)
    rw [consistent.ordered.ancestors_within grown.within found] at outside
    have below : left < routine.forest.size :=
      Nat.lt_trans (Forest.lt_of_mem_ancestors outside) (Forest.lt_size_of_get? found)
    have member := first.leaves_subset_ids atLeft
    rw [first.ids_eq, List.mem_cons] at member
    rcases member with rfl | inside
    · exact discerned.apart (grown.old inNews) (grown.old alsoInNews) outside
    · have later := grown.fresh left (List.mem_flatMap_of_mem inNews inside)
      omega
  · have inSecond : left ∈ second.ids := second.ids_perm.mem_iff.mpr (List.mem_append_left _ inner)
    obtain rfl :=
      Branch.eq_of_mem_ids distinct inNews alsoInNews (first.leaves_subset_ids atLeft) inSecond
    have once := (List.nodup_flatMap.mp distinct).1 first inNews
    rw [first.ids_perm.nodup_iff, List.nodup_append] at once
    exact once.2.2 left inner left atLeft rfl

theorem Grown.discern_branches (grown : routine.Grown next news)
    (consistent : routine.Consistent definition) (discerned : routine.Discerned)
    {left right : Branch} (inNews : left ∈ news) (alsoInNews : right ∈ news) {id other : Nat}
    {first second : Node} (atLeft : id ∈ left.ids) (atRight : other ∈ right.ids)
    (leftFound : next.forest.get? id = some first) (rightFound : next.forest.get? other = some second) :
    next.forest.Above id other ∨ next.forest.Above other id ∨
      first.signature.Diverges second.signature := by
  by_cases same : left = right
  · subst same
    exact (grown.held left inNews).discern grown.ordered atLeft atRight leftFound rightFound
  · have old := grown.old inNews
    have alsoOld := grown.old alsoInNews
    have different : left.id ≠ right.id := by
      intro sameId
      exact same (Branch.eq_of_mem_ids (grown.distinct discerned.nodup) inNews alsoInNews
        left.id_mem_ids (sameId ▸ right.id_mem_ids))
    obtain ⟨leftNode, leftStart⟩ := consistent.present left.id old
    obtain ⟨rightNode, rightStart⟩ := consistent.present right.id alsoOld
    rcases discerned.discern (alive_of_mem old) (alive_of_mem alsoOld) leftStart rightStart with
      higher | higher | parted
    · exact (higher.elim different (discerned.apart old alsoOld)).elim
    · exact (higher.elim different.symm (discerned.apart alsoOld old)).elim
    · have toLeft :=
        (grown.held left inNews).prefix_signature (grown.within leftStart) atLeft leftFound
      have toRight :=
        (grown.held right alsoInNews).prefix_signature (grown.within rightStart) atRight rightFound
      exact .inr (.inr (parted.continued toLeft toRight))

theorem Grown.discern_above (grown : routine.Grown next news)
    (consistent : routine.Consistent definition) (discerned : routine.Discerned)
    {left right : Branch} (inNews : left ∈ news) (alsoInNews : right ∈ news) {id upper : Nat}
    {first second : Node} (atLeft : id ∈ left.ids) (atRight : upper ∈ routine.forest.ancestors right.id)
    (leftFound : next.forest.get? id = some first)
    (rightFound : routine.forest.get? upper = some second) :
    next.forest.Above upper id ∨ first.signature.Diverges second.signature := by
  have old := grown.old inNews
  obtain ⟨leftNode, leftStart⟩ := consistent.present left.id old
  have alive : routine.Alive upper := ⟨right.id, grown.old alsoInNews, .inr atRight⟩
  rcases discerned.discern (alive_of_mem old) alive leftStart rightFound with higher | higher | parted
  · have above : left.id ∈ routine.forest.ancestors right.id := by
      rcases higher with rfl | higher
      · exact atRight
      · exact Forest.mem_ancestors_trans higher atRight
    exact (discerned.apart old (grown.old alsoInNews) above).elim
  · exact .inl ((grown.above consistent leftStart higher).trans
      ((grown.held left inNews).above grown.ordered atLeft))
  · have toLeft :=
      (grown.held left inNews).prefix_signature (grown.within leftStart) atLeft leftFound
    exact .inr (parted.continued toLeft List.prefix_rfl)

/-- A node above the old sequence was there before. -/
theorem Grown.get?_above (grown : routine.Grown next news) (consistent : routine.Consistent definition)
    {branch : Branch} {id : Nat} {node : Node} (inNews : branch ∈ news)
    (above : id ∈ routine.forest.ancestors branch.id) (found : next.forest.get? id = some node) :
    routine.Alive id ∧ routine.forest.get? id = some node := by
  obtain ⟨start, startFound⟩ := consistent.present branch.id (grown.old inNews)
  obtain ⟨origin, originFound⟩ := Forest.get?_of_mem_ancestors startFound above
  obtain rfl : origin = node := Option.some.inj ((grown.within originFound).symm.trans found)
  exact ⟨⟨branch.id, grown.old inNews, .inr above⟩, originFound⟩

theorem Grown.colon (grown : routine.Grown next news) (consistent : routine.Consistent definition)
    (discerned : routine.Discerned) {id : Nat} {node : Node} (found : next.forest.get? id = some node) :
    ':' ∈ node.signature.text.toList := by
  by_cases old : id < routine.forest.size
  · have oldFound : routine.forest.get? id = some _ := Array.getElem?_eq_getElem old
    obtain rfl := Option.some.inj ((grown.within oldFound).symm.trans found)
    exact discerned.colon oldFound
  · obtain ⟨branch, inNews, inside⟩ := List.mem_flatMap.mp
      (grown.complete id (Nat.le_of_not_lt old) (Forest.lt_size_of_get? found))
    obtain ⟨start, startFound⟩ := consistent.present branch.id (grown.old inNews)
    have continued := (grown.held branch inNews).prefix_signature (grown.within startFound)
      (branch.ids_eq ▸ List.mem_cons_of_mem _ inside) found
    exact continued.subset (discerned.colon startFound)

end Grown

theorem Discerned.expandSelected (discerned : routine.Discerned)
    (consistent : routine.Consistent definition) {rounds : Nat} {selected : Nat → Bool}
    (expanded : routine.expandSelected registry rounds selected = .ok next) : next.Discerned := by
  obtain ⟨news, _, _, grown, _, _, _⟩ :=
    expandSelected_grown consistent.ordered consistent.present expanded
  have distinct := grown.distinct discerned.nodup
  refine ⟨?_, grown.apart consistent discerned, ?_, grown.colon consistent discerned⟩
  · rw [grown.sequence]
    exact distinct.sublist (.flatMap_right _ fun branch _ => branch.leaves_sublist_ids)
  · intro left right first second leftAlive rightAlive leftFound rightFound
    obtain ⟨upper, inNews, atLeft⟩ := grown.alive consistent leftAlive
    obtain ⟨lower, alsoInNews, atRight⟩ := grown.alive consistent rightAlive
    rcases atLeft with atLeft | atLeft
    · rcases atRight with atRight | atRight
      · exact grown.discern_branches consistent discerned inNews alsoInNews atLeft atRight leftFound
          rightFound
      · obtain ⟨_, rightOld⟩ := grown.get?_above consistent alsoInNews atRight rightFound
        exact .inr
          (grown.discern_above consistent discerned inNews alsoInNews atLeft atRight leftFound rightOld)
    · obtain ⟨leftLived, leftOld⟩ := grown.get?_above consistent inNews atLeft leftFound
      rcases atRight with atRight | atRight
      · rcases grown.discern_above consistent discerned alsoInNews inNews atRight atLeft rightFound
          leftOld with above | parted
        · exact .inl above
        · exact .inr (.inr parted.symm)
      · obtain ⟨rightLived, rightOld⟩ := grown.get?_above consistent alsoInNews atRight rightFound
        rcases discerned.discern leftLived rightLived leftOld rightOld with above | above | parted
        · exact .inl (grown.above consistent rightOld above)
        · exact .inr (.inl (grown.above consistent leftOld above))
        · exact .inr (.inr parted)

/-! ### Any action -/

theorem Discerned.act (discerned : routine.Discerned) (consistent : routine.Consistent definition)
    (registry : Registry) (action : Action) : (routine.act registry action).Discerned := by
  have both : (routine.act registry action).Consistent definition ∧
      (routine.act registry action).Discerned := by
    apply act_keeps (P := fun next => next.Consistent definition ∧ next.Discerned) ⟨consistent, discerned⟩
    · rintro before after ⟨consistent, discerned⟩ same
      exact ⟨consistent.sameCode same, discerned.sameCode same⟩
    · rintro before after rounds selected ⟨consistent, discerned⟩ expanded
      exact ⟨(consistent.expandSelected expanded).1, discerned.expandSelected consistent expanded⟩
    · rintro before ⟨consistent, discerned⟩
      exact ⟨consistent.collapse, discerned.collapse consistent⟩
    · rintro before after key ⟨consistent, discerned⟩ collapsed
      exact ⟨consistent.collapseSingle collapsed, discerned.collapseSingle collapsed⟩
  exact both.2

end Routine

theorem Definition.Becomes.discerned {definition : Definition} {allowed : Action → Prop}
    {routine : Routine} (becomes : definition.Becomes allowed routine) : routine.Discerned := by
  induction becomes with
  | source => exact Routine.discerned_ofDefinition definition
  | act before _ registry ih => exact ih.act before.consistent registry _

/-! ## Keys -/

namespace Routine

variable {definition : Definition} {routine : Routine} {key : String}

theorem Discerned.position_unique (discerned : routine.Discerned) {left right : Nat}
    {first second : Node} (atLeft : routine.node? left = some first)
    (atRight : routine.node? right = some second)
    (same : first.signature.text = second.signature.text) : left = right := by
  obtain ⟨id, here, found⟩ := Option.bind_eq_some_iff.mp atLeft
  obtain ⟨other, there, alsoFound⟩ := Option.bind_eq_some_iff.mp atRight
  have member := List.mem_of_getElem? here
  have alsoMember := List.mem_of_getElem? there
  have sameId : id = other := by
    rcases discerned.discern (alive_of_mem member) (alive_of_mem alsoMember) found alsoFound with
      above | above | parted
    · exact above.elim (fun same => same) fun above => (discerned.apart member alsoMember above).elim
    · exact (above.elim (fun same => same) fun above =>
        (discerned.apart alsoMember member above).elim).symm
    · exact (parted.ne same).elim
  subst sameId
  exact (List.getElem?_inj (List.getElem?_eq_some_iff.mp here).1 discerned.nodup).mp
    (here.trans there.symm)

theorem Discerned.ne_digest (discerned : routine.Discerned) {id : Nat} {node : Node}
    (found : routine.forest.get? id = some node) (signature : Signature) :
    node.signature.text ≠ signature.digest := by
  intro same
  have colon := discerned.colon found
  rw [same] at colon
  exact signature.colon_not_mem_digest colon

theorem matchesKey_iff {node : Node} :
    node.signature.matchesKey key = true ↔
      node.signature.text = key ∨ node.signature.digest = key := by
  rw [Signature.matchesKey, Bool.or_eq_true, decide_eq_true_iff, decide_eq_true_iff]

theorem find_error_iff :
    (∃ failure, routine.find key = .error failure) ↔
      ∀ node ∈ routine.nodes, node.signature.text ≠ key ∧ node.signature.digest ≠ key := by
  rw [find]
  cases found : routine.nodes.findIdx? fun node => node.signature.matchesKey key with
  | none =>
      refine ⟨fun _ node member => ?_, fun _ => ⟨_, rfl⟩⟩
      have absent := List.findIdx?_eq_none_iff.mp found node member
      rw [Bool.eq_false_iff, ne_eq, matchesKey_iff, not_or] at absent
      exact absent
  | some position =>
      refine ⟨fun failed => ?_, fun absent => ?_⟩
      · obtain ⟨_, failed⟩ := failed
        cases failed
      · obtain ⟨inside, matching, _⟩ := List.findIdx?_eq_some_iff_getElem.mp found
        obtain ⟨text, handle⟩ := absent _ (List.getElem_mem inside)
        exact ((matchesKey_iff.mp matching).elim text handle).elim

theorem find_text (consistent : routine.Consistent definition) (discerned : routine.Discerned)
    {position : Nat} {node : Node} (here : routine.node? position = some node) :
    routine.find node.signature.text = .ok position := by
  rw [← consistent.getElem?_nodes] at here
  obtain ⟨inside, same⟩ := List.getElem?_eq_some_iff.mp here
  have first : (routine.nodes.findIdx? fun other =>
      other.signature.matchesKey node.signature.text) = some position := by
    rw [List.findIdx?_eq_some_iff_getElem]
    refine ⟨inside, matchesKey_iff.mpr (.inl (same ▸ rfl)), fun earlier before matching => ?_⟩
    have there : routine.node? earlier = some routine.nodes[earlier] := by
      rw [← consistent.getElem?_nodes]
      exact List.getElem?_eq_getElem _
    rcases matchesKey_iff.mp matching with text | handle
    · rw [consistent.getElem?_nodes] at here
      exact Nat.ne_of_lt before (discerned.position_unique there here text)
    · obtain ⟨id, _, found⟩ := mem_nodes.mp (List.mem_of_getElem? here)
      exact discerned.ne_digest found _ handle.symm
  rw [find, first]

/-- A signature identifies an instruction. Whatever was done to a routine since its definition, with whatever
functions it called, different positions have different signatures, no signature is the handle of any
signature, the signature at a position finds that position, and a key is not found exactly if no current
instruction has it as its signature or its handle. -/
theorem signature_identifies (becomes : definition.Becomes (fun _ => True) routine) :
    (∀ left right first second, routine.node? left = some first → routine.node? right = some second →
      left ≠ right → first.signature.text ≠ second.signature.text) ∧
    (∀ id node, routine.forest.get? id = some node → ∀ signature : Signature,
      node.signature.text ≠ signature.digest) ∧
    (∀ position node, routine.node? position = some node →
      routine.find node.signature.text = .ok position) ∧
    ∀ key, (∃ failure, routine.find key = .error failure) ↔
      ∀ node ∈ routine.nodes, node.signature.text ≠ key ∧ node.signature.digest ≠ key := by
  have discerned := becomes.discerned
  refine ⟨?_, ?_, ?_, fun key => find_error_iff⟩
  · exact fun left right first second atLeft atRight different same =>
      different (discerned.position_unique atLeft atRight same)
  · exact fun id node found => discerned.ne_digest found
  · exact fun position node here => find_text becomes.consistent discerned here

/-- The same instruction twice. -/
def twoCopies : Definition :=
  ⟨"Twice", [.plain (.assignment .result (.input 1)), .plain (.assignment .result (.input 1))]⟩

theorem twoCopies_signature_identifies :
    let routine := ((ofDefinition twoCopies).act ∅ (.expand 1)).act ∅ .restoreVars
    twoCopies.Becomes (fun _ => True) routine ∧ routine.length = 22 ∧
      ∀ position node, routine.node? position = some node →
        routine.find node.signature.text = .ok position := by
  intro routine
  have becomes : twoCopies.Becomes (fun _ => True) routine := .act (.act .source trivial ∅) trivial ∅
  obtain ⟨_, _, finds, _⟩ := signature_identifies becomes
  have length : routine.length = 22 := by decide +kernel
  exact ⟨becomes, length, finds⟩

end Routine

end CounterMachine
