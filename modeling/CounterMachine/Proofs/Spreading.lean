import CounterMachine.Proofs.Cutting
import CounterMachine.Proofs.Growth
set_option autoImplicit false

/-!
# Sequences over branches

The nodes that are to be executed are the leaves of branches which start at the source nodes of a forest. So
everything that was derived from one node stands together. Expansion extends the branches at their leaves, and
collapse cuts them, whatever functions are looked up.
-/

namespace CounterMachine

theorem Branch.In.get?_leaf {forest : Forest} {branch : Branch} (held : branch.In forest) :
    ∀ id ∈ branch.leaves, ∃ node, forest.get? id = some node := by
  intro id member
  have below := held.lt_size id (branch.leaves_subset_ids member)
  exact ⟨_, Array.getElem?_eq_getElem below⟩

/-! ## Tips -/

section Tips

variable {news : List Branch}

/-- The branch of a node among some branches. -/
def tipOf (news : List Branch) (id : Nat) : Branch :=
  (news.find? fun branch => branch.id = id).getD (.leaf id (.plain (.neutral .result)))

theorem tipOf_id (distinct : (news.map Branch.id).Nodup) {branch : Branch} (member : branch ∈ news) :
    tipOf news branch.id = branch := by
  have found : (news.find? fun other => other.id = branch.id) = some branch := by
    induction news with
    | nil => cases member
    | cons first rest ih =>
        rw [List.map_cons, List.nodup_cons] at distinct
        rcases List.mem_cons.mp member with rfl | later
        · exact List.find?_cons_of_pos (by simp)
        · have different : first.id ≠ branch.id := by
            intro same
            exact distinct.1 (same ▸ List.mem_map_of_mem later)
          rw [List.find?_cons_of_neg (by simpa using different)]
          exact ih distinct.2 later
  rw [tipOf, found, Option.getD_some]

theorem map_tipOf (distinct : (news.map Branch.id).Nodup) :
    (news.map Branch.id).map (tipOf news) = news := by
  rw [List.map_map]
  exact (List.map_congr_left fun branch member => tipOf_id distinct member).trans (List.map_id news)

theorem flatMap_tipOf {α : Type} (distinct : (news.map Branch.id).Nodup) (part : Branch → List α) :
    ((news.map Branch.id).flatMap fun id => part (tipOf news id)) = news.flatMap part := by
  conv_rhs => rw [← map_tipOf distinct, List.flatMap_map]

end Tips

theorem Branch.Full.extend {tip : Nat → Branch} {branch : Branch} (full : branch.Full)
    (tips : ∀ id ∈ branch.leaves, (tip id).Full) : (branch.extend tip).Full := by
  induction full with
  | leaf id instruction =>
      rw [extend_leaf]
      exact tips id (by simp)
  | node some _ ih =>
      rw [extend_node]
      refine .node (by simpa using some) ?_
      intro child extended
      obtain ⟨original, member, rfl⟩ := List.mem_map.mp extended
      apply ih original member
      intro id inChild
      apply tips
      rw [leaves_node]
      exact List.mem_flatMap_of_mem member inChild

/-! ## Spread sequences -/

/-- A sequence consists of the leaves of branches, which start at source nodes and have no node in common. -/
structure Spread (forest : Forest) (branches : List Branch) (sequence : List Nat) : Prop where
  ordered : forest.Ordered
  roots : ∀ branch ∈ branches, ∃ node, forest.get? branch.id = some node ∧ node.parent = none
  held : ∀ branch ∈ branches, branch.In forest
  distinct : (branches.flatMap Branch.ids).Nodup
  full : ∀ branch ∈ branches, branch.Full
  leaves : sequence = branches.flatMap Branch.leaves

namespace Spread

variable {forest : Forest} {branches : List Branch} {sequence : List Nat}

theorem leaf_mem (spread : Spread forest branches sequence) {branch : Branch} (member : branch ∈ branches)
    {leaf : Nat} (inBranch : leaf ∈ branch.leaves) : leaf ∈ sequence := by
  rw [spread.leaves]
  exact List.mem_flatMap_of_mem member inBranch

theorem present (spread : Spread forest branches sequence) :
    ∀ id ∈ sequence, ∃ node, forest.get? id = some node := by
  intro id member
  rw [spread.leaves, List.mem_flatMap] at member
  obtain ⟨branch, inBranches, member⟩ := member
  exact (spread.held branch inBranches).get?_leaf id member

theorem nodup (spread : Spread forest branches sequence) : sequence.Nodup := by
  rw [spread.leaves]
  refine spread.distinct.sublist ?_
  exact .flatMap_right _ fun branch _ => branch.leaves_sublist_ids

theorem ancestors_root (spread : Spread forest branches sequence) {branch : Branch}
    (member : branch ∈ branches) : forest.ancestors branch.id = [] := by
  obtain ⟨node, found, root⟩ := spread.roots branch member
  exact Forest.ancestors_root found root

/-- What a leaf of a branch was derived from is expanded in that branch. -/
theorem mem_inner (spread : Spread forest branches sequence) {branch : Branch}
    (inBranches : branch ∈ branches) {leaf ancestor : Nat} (member : leaf ∈ branch.leaves)
    (above : ancestor ∈ forest.ancestors leaf) : ancestor ∈ branch.inner := by
  rcases (spread.held branch inBranches).ancestors_leaf spread.ordered member above with outside | inner
  · rw [spread.ancestors_root inBranches] at outside
    cases outside
  · exact inner

/-- The leaves of the branches give way to the new branches of the same nodes. -/
theorem tips (spread : Spread forest branches sequence) {news : List Branch} {larger : Forest}
    (ids : news.map Branch.id = sequence) (held : ∀ branch ∈ news, branch.In larger) :
    ∀ branch ∈ branches, Branch.Tips (tipOf news) larger branch := by
  intro branch member leaf inBranch
  have inSequence : leaf ∈ news.map Branch.id := ids ▸ spread.leaf_mem member inBranch
  obtain ⟨tip, inNews, rfl⟩ := List.mem_map.mp inSequence
  rw [tipOf_id (ids ▸ spread.nodup) inNews]
  exact ⟨rfl, held tip inNews⟩

theorem extend (spread : Spread forest branches sequence) {news : List Branch} {growth : Growth}
    (ids : news.map Branch.id = sequence)
    (grows : Growth.Grows { forest } growth news (news.flatMap Branch.inside))
    (full : ∀ branch ∈ news, branch.Full) :
    Spread growth.forest (branches.map (Branch.extend (tipOf news))) growth.sequence.toList := by
  have distinct : (news.map Branch.id).Nodup := ids ▸ spread.nodup
  have leaves : branches.flatMap Branch.leaves = news.map Branch.id := by rw [ids, spread.leaves]
  have tips := spread.tips ids grows.held
  exact {
    ordered := grows.ordered
    roots := by
      intro branch extended
      obtain ⟨original, member, rfl⟩ := List.mem_map.mp extended
      obtain ⟨node, found, root⟩ := spread.roots original member
      rw [Branch.id_extend (tips original member)]
      exact ⟨node, grows.within found, root⟩
    held := by
      intro branch extended
      obtain ⟨original, member, rfl⟩ := List.mem_map.mp extended
      exact (spread.held original member).extend grows.within (tips original member)
    distinct := by
      have perm := Branch.ids_extend_all fun branch member =>
        Branch.ids_extend branch fun leaf inBranch => (tips branch member leaf inBranch).1
      rw [perm.nodup_iff, leaves, flatMap_tipOf distinct]
      refine spread.distinct.append grows.distinct ?_
      intro id old fresh
      obtain ⟨branch, member, inBranch⟩ := List.mem_flatMap.mp old
      have below := (spread.held branch member).lt_size id inBranch
      exact Nat.lt_irrefl id (Nat.lt_of_lt_of_le below (grows.fresh id fresh).1)
    full := by
      intro branch extended
      obtain ⟨original, member, rfl⟩ := List.mem_map.mp extended
      apply (spread.full original member).extend
      intro leaf inBranch
      have inNews : leaf ∈ news.map Branch.id := ids ▸ spread.leaf_mem member inBranch
      obtain ⟨tip, tipInNews, rfl⟩ := List.mem_map.mp inNews
      rw [tipOf_id distinct tipInNews]
      exact full tip tipInNews
    leaves := by
      rw [List.flatMap_map]
      simp only [Branch.leaves_extend]
      rw [← List.flatMap_assoc, leaves, flatMap_tipOf distinct]
      exact grows.sequence }

theorem cut (spread : Spread forest branches sequence) {here : Nat → Bool}
    {replacement : Nat → Option Nat}
    (replaced : ∀ branch ∈ branches, branch.Replaced here replacement) :
    Spread forest (branches.map (Branch.cut here)) (replaceTogether replacement sequence []) where
  ordered := spread.ordered
  roots := by
    intro branch trimmed
    obtain ⟨original, member, rfl⟩ := List.mem_map.mp trimmed
    rw [Branch.id_cut]
    exact spread.roots original member
  held := by
    intro branch trimmed
    obtain ⟨original, member, rfl⟩ := List.mem_map.mp trimmed
    exact (spread.held original member).cut
  distinct := by
    refine spread.distinct.sublist ?_
    rw [List.flatMap_map]
    exact .flatMap_right branches fun branch _ => branch.ids_cut
  full := by
    intro branch trimmed
    obtain ⟨original, member, rfl⟩ := List.mem_map.mp trimmed
    exact (spread.full original member).cut
  leaves := by
    rw [← Branch.replaceTogether_leaves spread.distinct replaced, ← spread.leaves]

end Spread

end CounterMachine
