import GroupedLedger.Proofs.DisjointSets
import Mathlib.Logic.Relation

namespace GroupedLedger.DisjointSets

variable {sets next : DisjointSets} {top node steps child parent : Nat}

/-- How many nodes are under a root. -/
def weight (sets : DisjointSets) (top : Nat) : Nat :=
  ((Finset.range sets.parent.size).filter fun node => sets.root node = top).card

/-- Ranks rise along the links, and every root is as heavy as its rank says. -/
structure Ranked (sets : DisjointSets) : Prop where
  forest : Forest sets
  size : sets.rank.size = sets.parent.size
  rising : Rising sets
  heavy : ∀ top < sets.parent.size, sets.root top = top → 2 ^ sets.rankOf top ≤ sets.weight top

theorem Under.add_rankOf_le (h : Under sets top steps node) (rising : Rising sets) :
    steps + sets.rankOf node ≤ sets.rankOf top := by
  induction h with
  | top _ => omega
  | step moves _ ih =>
    have more := rising _ moves
    omega

theorem Forest.root_root (forest : Forest sets) (node : Nat) :
    sets.root (sets.root node) = sets.root node := by
  obtain ⟨_, h⟩ := forest.under_root node
  exact (Under.top h.root).root_eq

theorem weight_le (sets : DisjointSets) (top : Nat) : sets.weight top ≤ sets.parent.size := by
  have fewer := Finset.card_filter_le (Finset.range sets.parent.size) fun node => sets.root node = top
  rwa [Finset.card_range] at fewer

namespace Ranked

theorem rankOf_root_le (h : Ranked sets) (hn : node < sets.parent.size) :
    sets.rankOf (sets.root node) ≤ sets.parent.size.log2 := by
  have inside := h.forest.root_lt hn
  rw [Nat.le_log2 (by omega)]
  exact (h.heavy _ inside (h.forest.root_root node)).trans (sets.weight_le _)

theorem rankOf_le (h : Ranked sets) (hn : node < sets.parent.size) :
    sets.rankOf node ≤ sets.parent.size.log2 := by
  obtain ⟨_, under⟩ := h.forest.under_root node
  have most := h.rankOf_root_le hn
  have below := under.add_rankOf_le h.rising
  omega

/-- The walk up from a node takes no more rounds than the logarithm of the number of nodes. -/
theorem exists_walk_find (h : Ranked sets) (hn : node < sets.parent.size) :
    ∃ rounds, rounds ≤ sets.parent.size.log2 ∧ Walk rounds sets node (sets.find node) := by
  obtain ⟨_, under⟩ := h.forest.under_root node
  obtain ⟨rounds, short, walk⟩ := exists_walk under under.steps_le
  have most := h.rankOf_root_le hn
  have below := under.add_rankOf_le h.rising
  exact ⟨rounds, by omega, walk⟩

theorem singletons (count : Nat) : Ranked (singletons count) := by
  obtain ⟨forest, size⟩ := forest_singletons count
  refine ⟨forest, by simp [DisjointSets.singletons], ?_, ?_⟩
  · intro node moves
    exact absurd (up_singletons count node) moves
  · intro top inside root
    have none : (DisjointSets.singletons count).rankOf top = 0 := by
      simp only [rankOf, DisjointSets.singletons, Array.getD_eq_getD_getElem?,
        Array.getElem?_replicate]
      split <;> rfl
    rw [none, weight]
    apply Finset.card_pos.mpr
    exact ⟨top, by simpa using ⟨inside, root⟩⟩

theorem flatter (h : Ranked sets) (flatter : Flatter sets next) : Ranked next := by
  have roots : next.root = sets.root := funext (h.forest.root_flatter flatter)
  refine ⟨h.forest.flatter flatter, ?_, flatter.rising h.rising, ?_⟩
  · rw [flatter.rank, flatter.size, h.size]
  · simp only [weight, rankOf, roots, flatter.size, flatter.rank]
    exact h.heavy

end Ranked

theorem Hung.rankOf_eq (hung : Hung sets next child parent) (inside : parent < sets.rank.size)
    (node : Nat) :
    next.rankOf node = if node = parent ∧ sets.rankOf child = sets.rankOf parent
      then sets.rankOf node + 1 else sets.rankOf node := by
  rcases hung.ranked with ⟨less, kept⟩ | ⟨equal, raised⟩
  · rw [if_neg (by omega)]
    simp only [rankOf, kept]
  · by_cases he : node = parent
    · subst he
      rw [if_pos ⟨rfl, equal⟩]
      simp [rankOf, raised, Array.getD_eq_getD_getElem?, inside]
    · rw [if_neg (fun both => he both.1)]
      simp [rankOf, raised, Array.getD_eq_getD_getElem?, Ne.symm he]

/-- Hanging a root under another leaves the ranks rising: the other's was larger, or it grows. -/
theorem Rising.hang (rising : Rising sets) (hung : Hung sets next child parent)
    (parentRoot : sets.up parent = parent) (different : child ≠ parent)
    (hc : child < sets.parent.size) (inside : parent < sets.rank.size) : Rising next := by
  have ranks := hung.rankOf_eq inside
  intro node moves
  rw [up_set hung.linked hc] at moves ⊢
  by_cases he : node = child
  · subst he
    rw [if_pos rfl, ranks, ranks]
    rcases hung.ranked with ⟨less, _⟩ | ⟨equal, _⟩
    · rw [if_neg (by omega), if_neg (by omega)]
      exact less
    · rw [if_neg (fun both => different both.1), if_pos ⟨rfl, equal⟩]
      omega
  · rw [if_neg he] at moves ⊢
    have notParent : node ≠ parent := fun same => moves (same ▸ parentRoot)
    have rises := rising node moves
    rw [ranks, ranks, if_neg (fun both => notParent both.1)]
    split <;> omega

section Weights

variable (moves : ∀ node, next.root node = if sets.root node = child then parent else sets.root node)
  (size : next.parent.size = sets.parent.size)

include moves size

/-- The root that stays gets the nodes of the root that is hung under it. -/
theorem weight_hung (different : child ≠ parent) :
    next.weight parent = sets.weight child + sets.weight parent := by
  rw [weight, weight, weight, size, ← Finset.card_union_of_disjoint, ← Finset.filter_or]
  · congr 1
    apply Finset.filter_congr
    intro node _
    rw [moves]
    split
    · rename_i he
      simp [he]
    · rename_i he
      simp [he]
  · apply Finset.disjoint_filter.mpr
    intro node _ first second
    exact different (first.symm.trans second)

theorem weight_of_hung (notChild : top ≠ child) (notParent : top ≠ parent) :
    next.weight top = sets.weight top := by
  rw [weight, weight, size]
  congr 1
  apply Finset.filter_congr
  intro node _
  rw [moves]
  split
  · rename_i under
    simp [under, Ne.symm notParent, Ne.symm notChild]
  · rfl

end Weights

/-- Hanging a root under another of the same rank makes room for the rank that is gained. -/
theorem Ranked.hang (h : Ranked sets) (hung : Hung sets next child parent)
    (childRoot : sets.up child = child) (parentRoot : sets.up parent = parent)
    (different : child ≠ parent) (hc : child < sets.parent.size) (hp : parent < sets.parent.size) :
    Ranked next := by
  obtain ⟨forest, size, moves⟩ := h.forest.hang childRoot parentRoot different hc hp hung.linked
  have ranked : parent < sets.rank.size := h.size.symm ▸ hp
  refine ⟨forest, ?_, h.rising.hang hung parentRoot different hc ranked, ?_⟩
  · rw [size, ← h.size]
    rcases hung.ranked with ⟨_, kept⟩ | ⟨_, raised⟩
    · rw [kept]
    · rw [raised, Array.size_setIfInBounds]
  · intro top inside root
    rw [size] at inside
    rw [moves] at root
    rw [hung.rankOf_eq ranked]
    by_cases he : top = parent
    · subst he
      rw [weight_hung moves size different]
      have childHeavy := h.heavy child hc (Under.top childRoot).root_eq
      have parentHeavy := h.heavy top hp (Under.top parentRoot).root_eq
      split
      · rename_i both
        rw [both.2] at childHeavy
        rw [Nat.pow_succ]
        omega
      · omega
    · have other : sets.root top = top ∧ top ≠ child := by
        split at root
        · exact absurd root.symm he
        · rename_i notChild
          exact ⟨root, fun same => notChild (root.trans same)⟩
      rw [if_neg (fun both => he both.1), weight_of_hung moves size other.2 he]
      exact h.heavy top inside other.1

theorem Ranked.unite (h : Ranked sets) {a b : Nat} (ha : a < sets.parent.size)
    (hb : b < sets.parent.size) : Ranked (sets.unite a b) := by
  obtain ⟨between, flatter, united⟩ := h.forest.unite_hung a b
  have ranked := h.flatter flatter
  have fixed := h.forest.up_root_flatter flatter
  have insideA := flatter.size.symm ▸ h.forest.root_lt ha
  have insideB := flatter.size.symm ▸ h.forest.root_lt hb
  rcases united with ⟨_, he⟩ | ⟨different, child, parent, ends, hung⟩
  · rwa [he]
  · rcases ends with ⟨rfl, rfl⟩ | ⟨rfl, rfl⟩
    · exact ranked.hang hung (fixed a) (fixed b) different insideA insideB
    · exact ranked.hang hung (fixed b) (fixed a) (Ne.symm different) insideB insideA

inductive Request (count : Nat) where
  | find (node : Fin count)
  | unite (a b : Fin count)

def serve {count : Nat} (sets : DisjointSets) : Request count → DisjointSets
  | .find node => (sets.find node).2
  | .unite a b => sets.unite a b

/-- The sets after some calls, from sets of one node each. -/
def served {count : Nat} (requests : List (Request count)) : DisjointSets :=
  requests.foldl serve (singletons count)

/-- Two nodes were united by one of the calls. -/
def United {count : Nat} (requests : List (Request count)) (a b : Fin count) : Prop :=
  .unite a b ∈ requests

/-- What agrees on united nodes agrees on all that a chain of them links. -/
theorem eq_of_linked {count : Nat} {requests : List (Request count)} (value : Fin count → Nat)
    (agrees : ∀ a b, United requests a b → value a = value b) {a b : Fin count}
    (linked : Relation.EqvGen (United requests) a b) : value a = value b :=
  (eq_equivalence.comap value).eqvGen_iff.mp (linked.mono agrees)

/-- What holds of the sets once some calls were served: nodes share a root exactly if a chain of
united pairs links them, read in either direction. -/
structure Serving {count : Nat} (requests : List (Request count)) (sets : DisjointSets) : Prop where
  ranked : Ranked sets
  size : sets.parent.size = count
  joined : ∀ a b : Fin count, sets.root a = sets.root b ↔ Relation.EqvGen (United requests) a b

namespace Serving

variable {count : Nat} {requests : List (Request count)}

theorem start (count : Nat) : @Serving count [] (DisjointSets.singletons count) := by
  refine ⟨.singletons count, (forest_singletons count).2, fun a b => ?_⟩
  rw [root_singletons, root_singletons]
  constructor
  · intro same
    exact Fin.ext same ▸ .refl a
  · exact eq_of_linked Fin.val fun _ _ united => absurd united List.not_mem_nil

theorem find (h : Serving requests sets) (node : Fin count) :
    Serving (requests ++ [.find node]) (sets.find node).2 := by
  obtain ⟨_, under⟩ := h.ranked.forest.under_root node
  have flatter := (find_spec under).2
  have same : United (requests ++ [.find node]) = United requests := by
    funext a b
    simp [United]
  refine ⟨h.ranked.flatter flatter, flatter.size.trans h.size, fun a b => ?_⟩
  rw [h.ranked.forest.root_flatter flatter, h.ranked.forest.root_flatter flatter, same]
  exact h.joined a b

theorem unite (h : Serving requests sets) (a b : Fin count) :
    Serving (requests ++ [.unite a b]) (sets.unite a b) := by
  have ha : a < sets.parent.size := h.size.symm ▸ a.isLt
  have hb : b < sets.parent.size := h.size.symm ▸ b.isLt
  have size := (h.ranked.forest.unite ha hb).2.1
  refine ⟨h.ranked.unite ha hb, size.trans h.size, fun x y => ?_⟩
  have more : ∀ {x y}, Relation.EqvGen (United requests) x y →
      Relation.EqvGen (United (requests ++ [.unite a b])) x y :=
    fun linked => linked.mono fun _ _ united => List.mem_append_left _ united
  have link : Relation.EqvGen (United (requests ++ [.unite a b])) a b :=
    .rel a b (List.mem_append_right _ (List.mem_singleton.mpr rfl))
  constructor
  · intro together
    rcases (h.ranked.forest.root_unite_iff ha hb).mp together with same | ends | ends
    · exact more ((h.joined x y).mp same)
    · have first := more ((h.joined x a).mp ends.1)
      have second := more ((h.joined y b).mp ends.2)
      exact (first.trans _ _ _ link).trans _ _ _ second.symm
    · have first := more ((h.joined x b).mp ends.1)
      have second := more ((h.joined y a).mp ends.2)
      exact (first.trans _ _ _ link.symm).trans _ _ _ second.symm
  · intro linked
    refine eq_of_linked (fun node => (sets.unite a b).root node) ?_ linked
    intro x y united
    rw [h.ranked.forest.root_unite_iff ha hb]
    rcases List.mem_append.mp united with before | now
    · exact .inl ((h.joined x y).mpr (.rel x y before))
    · simp only [List.mem_singleton, Request.unite.injEq] at now
      obtain ⟨rfl, rfl⟩ := now
      exact .inr (.inl ⟨rfl, rfl⟩)

theorem foldl (h : Serving requests sets) (later : List (Request count)) :
    Serving (requests ++ later) (later.foldl serve sets) := by
  induction later generalizing requests sets with
  | nil => rwa [List.append_nil]
  | cons request later ih =>
    have next : Serving (requests ++ [request]) (serve sets request) := by
      cases request with
      | find node => exact h.find node
      | unite a b => exact h.unite a b
    have rest := ih next
    rwa [List.append_assoc] at rest

end Serving

theorem serving_served {count : Nat} (requests : List (Request count)) :
    Serving requests (served requests) :=
  (Serving.start count).foldl requests

/-- Whatever calls were served, finding the root of a node ends, within as many rounds as the
logarithm of the number of nodes; it gives a node that is its own parent, and changes no node's
root. Two nodes have one root exactly if a chain of united pairs links them. Every link leads to a
larger rank, a root of rank `r` has `2 ^ r` nodes under it, and so no rank exceeds the logarithm,
and one byte holds it as long as there are not `2 ^ 256` nodes. -/
theorem served_ranked {count : Nat} (requests : List (Request count)) :
    let sets := served requests
    (∀ node : Fin count,
      let found := sets.find node
      (∃ rounds, rounds ≤ count.log2 ∧ Walk rounds sets node found) ∧
      found.1 < count ∧ found.2.up found.1 = found.1 ∧
      ∀ other, found.2.root other = sets.root other) ∧
    (∀ a b : Fin count, (sets.find a).1 = (sets.find b).1 ↔
      Relation.EqvGen (United requests) a b) ∧
    (∀ node, sets.up node ≠ node → sets.rankOf node < sets.rankOf (sets.up node)) ∧
    (∀ top : Fin count, sets.up top = top → 2 ^ sets.rankOf top ≤ sets.weight top) ∧
    ∀ node : Fin count, sets.rankOf node ≤ count.log2 ∧
      (count < 2 ^ UInt8.size → sets.rankOf node < UInt8.size) := by
  intro sets
  obtain ⟨ranked, size, joined⟩ := serving_served requests
  have inside : ∀ node : Fin count, node < sets.parent.size := fun node => size.symm ▸ node.isLt
  have logarithm : ∀ node : Fin count, sets.rankOf node ≤ count.log2 := by
    intro node
    have most := ranked.rankOf_le (inside node)
    rwa [size] at most
  refine ⟨fun node => ⟨?_, ?_, ?_, ?_⟩, joined, ranked.rising, fun top root => ?_, fun node =>
    ⟨logarithm node, fun few => ?_⟩⟩
  · have walk := ranked.exists_walk_find (inside node)
    rwa [size] at walk
  · have low := ranked.forest.root_lt (inside node)
    rwa [size] at low
  · obtain ⟨_, under⟩ := ranked.forest.under_root node
    exact ranked.forest.up_root_flatter (find_spec under).2 node
  · obtain ⟨_, under⟩ := ranked.forest.under_root node
    exact ranked.forest.root_flatter (find_spec under).2
  · exact ranked.heavy top (inside top) (Under.top root).root_eq
  · have room := (Nat.log2_lt (Nat.ne_of_gt node.pos)).mpr few
    exact (logarithm node).trans_lt room

end GroupedLedger.DisjointSets
