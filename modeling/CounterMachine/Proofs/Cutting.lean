import CounterMachine.Proofs.Blocks
import CounterMachine.Proofs.Branches
import CounterMachine.Routine.Expansion
set_option autoImplicit false

/-!
# Cutting of branches

Collapse cuts branches: at some nodes everything below is taken away, so that the node is a leaf again. In
the sequence, the leaves below a cut give way to the node together.
-/

namespace CounterMachine

/-- A member of a collapsed sequence is kept, or it is a replacement that was not seen before. -/
theorem mem_replaceTogether {replacement : Nat → Option Nat} {sequence seen : List Nat} {id : Nat} :
    id ∈ replaceTogether replacement sequence seen ↔
      (id ∈ sequence ∧ replacement id = none) ∨
        (id ∉ seen ∧ ∃ other ∈ sequence, replacement other = some id) := by
  induction sequence generalizing seen with
  | nil => simp [replaceTogether]
  | cons first rest ih =>
      rw [replaceTogether]
      cases replaced : replacement first with
      | none => grind
      | some parent =>
          dsimp only
          split <;> grind

namespace Branch

/-- Cuts a branch at the chosen nodes. -/
def cut (here : Nat → Bool) : Branch → Branch
  | leaf id instruction => .leaf id instruction
  | node id instruction children =>
      if here id then .leaf id instruction else .node id instruction (children.map (cut here))

variable {here : Nat → Bool}

@[simp] theorem cut_leaf (id : Nat) (instruction : Instruction) :
    (leaf id instruction).cut here = .leaf id instruction := by
  rw [cut]

theorem cut_node (id : Nat) (instruction : Instruction) (children : List Branch) :
    (node id instruction children).cut here =
      if here id then .leaf id instruction else .node id instruction (children.map (cut here)) := by
  rw [cut]

@[simp] theorem id_cut (branch : Branch) : (branch.cut here).id = branch.id := by
  cases branch with
  | leaf place instruction => simp
  | node place instruction children =>
      rw [cut_node]
      split <;> rfl

@[simp] theorem instruction_cut (branch : Branch) :
    (branch.cut here).instruction = branch.instruction := by
  cases branch with
  | leaf place found => simp
  | node place found children =>
      rw [cut_node]
      split <;> rfl

theorem ids_cut (branch : Branch) : (branch.cut here).ids.Sublist branch.ids := by
  induction branch using induction with
  | leaf id instruction => simp
  | node id instruction children ih =>
      rw [cut_node, ids_node]
      split
      · simp
      · rw [ids_node, List.flatMap_map]
        exact .cons_cons _ (.flatMap_right children ih)

theorem In.cut {forest : Forest} {branch : Branch} (held : branch.In forest) :
    (branch.cut here).In forest := by
  induction held with
  | leaf found =>
      rw [cut_leaf]
      exact .leaf found
  | node found linked inner ih =>
      rw [cut_node]
      split
      · exact .leaf found
      · refine .node found ?_ ?_
        · intro ordinal child present
          rw [List.getElem?_map, Option.map_eq_some_iff] at present
          obtain ⟨original, present, rfl⟩ := present
          rw [id_cut, instruction_cut]
          exact linked present
        · intro child trimmed
          obtain ⟨original, member, rfl⟩ := List.mem_map.mp trimmed
          exact ih original member

/-- Every expanded node has children. -/
inductive Full : Branch → Prop where
  | leaf (id : Nat) (instruction : Instruction) : Full (.leaf id instruction)
  | node {id : Nat} {instruction : Instruction} {children : List Branch} (some : children ≠ [])
      (inner : ∀ child ∈ children, child.Full) : Full (.node id instruction children)

theorem full_of_unfolded {registry : Registry} {branch : Branch}
    (unfolded : branch.derivation.Unfolded registry) : branch.Full := by
  induction branch using induction with
  | leaf id instruction => exact .leaf id instruction
  | node id instruction children ih =>
      rw [derivation_node] at unfolded
      cases unfolded with
      | node synthetic expanded complete inner =>
          refine .node ?_ fun child member => ih child member (inner _ (List.mem_map_of_mem member))
          rintro rfl
          obtain ⟨draft, stands, _⟩ := Operation.expansion_ok synthetic expanded
          obtain ⟨first, rest, rfl⟩ := stands.starts
          cases complete

theorem Full.child {id : Nat} {instruction : Instruction} {children : List Branch}
    (full : (Branch.node id instruction children).Full) {child : Branch} (member : child ∈ children) :
    child.Full := by
  cases full with
  | node _ inner => exact inner child member

theorem Full.leaves_ne_nil {branch : Branch} (full : branch.Full) : branch.leaves ≠ [] := by
  induction full with
  | leaf id instruction => simp
  | @node id instruction children some _ ih =>
      cases children with
      | nil => exact (some rfl).elim
      | cons child rest =>
          have first := ih child List.mem_cons_self
          simp [first]

theorem Full.cut {branch : Branch} (full : branch.Full) : (branch.cut here).Full := by
  induction full with
  | leaf id instruction =>
      rw [cut_leaf]
      exact .leaf id instruction
  | node some _ ih =>
      rw [cut_node]
      split
      · exact .leaf _ _
      · refine .node (by simpa using some) ?_
        intro child trimmed
        obtain ⟨original, member, rfl⟩ := List.mem_map.mp trimmed
        exact ih original member

/-! ## Giving way together -/

/-- The leaves below a cut give way to the node of the cut, and no other leaf gives way. -/
inductive Replaced (here : Nat → Bool) (replacement : Nat → Option Nat) : Branch → Prop where
  | leaf {id : Nat} {instruction : Instruction} (stays : replacement id = none) :
      Replaced here replacement (.leaf id instruction)
  | cut {id : Nat} {instruction : Instruction} {children : List Branch} (chosen : here id = true)
      (some : children.flatMap leaves ≠ [])
      (all : ∀ leaf ∈ children.flatMap leaves, replacement leaf = .some id) :
      Replaced here replacement (.node id instruction children)
  | keep {id : Nat} {instruction : Instruction} {children : List Branch} (kept : here id = false)
      (inner : ∀ child ∈ children, child.Replaced here replacement) :
      Replaced here replacement (.node id instruction children)

/-- Members that give way to a node that was seen already disappear. -/
theorem replaceTogether_seen {replacement : Nat → Option Nat} {id : Nat} {members : List Nat}
    (all : ∀ member ∈ members, replacement member = some id) {seen : List Nat} (known : id ∈ seen)
    (rest : List Nat) :
    replaceTogether replacement (members ++ rest) seen = replaceTogether replacement rest seen := by
  induction members with
  | nil => rfl
  | cons member members ih =>
      rw [List.cons_append, replaceTogether, all member (by simp)]
      simp only [List.contains_eq_mem, known, decide_true, if_true]
      exact ih fun other inMembers => all other (by simp [inMembers])

/-- What some leaves become in a sequence, whatever comes after them, if no node among `ids` was seen. -/
def Gives (replacement : Nat → Option Nat) (leaves ids left : List Nat) : Prop :=
  ∀ rest seen, (∀ id ∈ ids, id ∉ seen) → ∃ later,
    replaceTogether replacement (leaves ++ rest) seen =
      left ++ replaceTogether replacement rest later ∧
    ∀ id ∈ later, id ∈ seen ∨ id ∈ ids

theorem gives_flatMap {replacement : Nat → Option Nat} {branches : List Branch}
    (distinct : (branches.flatMap ids).Nodup)
    (each : ∀ branch ∈ branches,
      Gives replacement branch.leaves branch.ids (branch.cut here).leaves) :
    Gives replacement (branches.flatMap leaves) (branches.flatMap ids)
      ((branches.map (cut here)).flatMap leaves) := by
  induction branches with
  | nil =>
      intro rest seen _
      exact ⟨seen, by simp, fun id member => .inl member⟩
  | cons branch branches ih =>
      intro rest seen unseen
      rw [List.flatMap_cons, List.nodup_append] at distinct
      obtain ⟨_, restDistinct, apart⟩ := distinct
      obtain ⟨middle, first, known⟩ := each branch (by simp) (branches.flatMap leaves ++ rest) seen
        fun id member => unseen id (by simp [member])
      obtain ⟨later, second, knownLater⟩ := ih restDistinct
        (fun other member => each other (by simp [member])) rest middle (by
          intro id member inMiddle
          rcases known id inMiddle with inSeen | inBranch
          · exact unseen id (by rw [List.flatMap_cons]; exact List.mem_append_right _ member) inSeen
          · exact apart id inBranch id member rfl)
      refine ⟨later, ?_, ?_⟩
      · rw [List.flatMap_cons, List.append_assoc, first, second, List.map_cons, List.flatMap_cons,
          List.append_assoc]
      · intro id member
        rw [List.flatMap_cons, List.mem_append]
        rcases knownLater id member with inMiddle | inRest
        · rcases known id inMiddle with inSeen | inBranch
          · exact .inl inSeen
          · exact .inr (.inl inBranch)
        · exact .inr (.inr inRest)

theorem Replaced.gives {replacement : Nat → Option Nat} {branch : Branch}
    (replaced : branch.Replaced here replacement) (distinct : branch.ids.Nodup) :
    Gives replacement branch.leaves branch.ids (branch.cut here).leaves := by
  induction replaced with
  | leaf stays =>
      intro rest seen _
      refine ⟨seen, ?_, fun id member => .inl member⟩
      simp [replaceTogether, stays]
  | @cut id instruction children chosen some all =>
      intro rest seen unseen
      rw [leaves_node, cut_node, chosen, if_pos rfl, leaves_leaf]
      obtain ⟨first, others, split⟩ := List.exists_cons_of_ne_nil some
      rw [split] at all ⊢
      have new : id ∉ seen := unseen id (by simp)
      refine ⟨id :: seen, ?_, ?_⟩
      · rw [List.cons_append, replaceTogether, all first (by simp)]
        simp only [List.contains_eq_mem, new, decide_false, Bool.false_eq_true, if_false]
        rw [replaceTogether_seen (fun member inOthers => all member (by simp [inOthers])) (by simp)]
        rfl
      · intro other member
        rw [List.mem_cons] at member
        rcases member with rfl | member
        · exact .inr (by simp)
        · exact .inl member
  | @keep id instruction children kept inner ih =>
      rw [ids_node] at distinct
      rw [leaves_node, cut_node, kept, if_neg Bool.false_ne_true, leaves_node, ids_node]
      have childrenDistinct := (List.nodup_cons.mp distinct).2
      have children := gives_flatMap childrenDistinct fun child member =>
        ih child member ((List.nodup_flatMap.mp childrenDistinct).1 child member)
      intro rest seen unseen
      obtain ⟨later, equal, known⟩ := children rest seen fun id member => unseen id (by simp [member])
      refine ⟨later, equal, fun id member => ?_⟩
      rcases known id member with inSeen | inside
      · exact .inl inSeen
      · exact .inr (List.mem_cons_of_mem _ inside)

/-- Replacing leaves in the sequence of some branches cuts the branches. -/
theorem replaceTogether_leaves {replacement : Nat → Option Nat} {branches : List Branch}
    (distinct : (branches.flatMap ids).Nodup)
    (replaced : ∀ branch ∈ branches, branch.Replaced here replacement) :
    replaceTogether replacement (branches.flatMap leaves) [] =
      (branches.map (cut here)).flatMap leaves := by
  have each := gives_flatMap distinct fun branch member =>
    (replaced branch member).gives ((List.nodup_flatMap.mp distinct).1 branch member)
  obtain ⟨later, equal, _⟩ := each [] [] (by simp)
  rw [List.append_nil] at equal
  rw [equal, replaceTogether, List.append_nil]

end Branch

end CounterMachine
