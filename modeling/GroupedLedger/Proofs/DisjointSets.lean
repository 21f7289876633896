import GroupedLedger.Grouping.DisjointSets
import Mathlib.Data.Finset.Card
import Mathlib.Order.Interval.Finset.Nat

namespace GroupedLedger.DisjointSets

/-- From `node`, so many parent links lead up to the root `top`. -/
inductive Under (sets : DisjointSets) (top : Nat) : Nat → Nat → Prop
  | top : sets.up top = top → Under sets top 0 top
  | step {steps node : Nat} : sets.up node ≠ node → Under sets top steps (sets.up node) →
      Under sets top (steps + 1) node

variable {sets next : DisjointSets} {top other node steps fewer : Nat}

theorem lt_of_up_ne (moves : sets.up node ≠ node) : node < sets.parent.size := by
  apply Decidable.byContradiction
  intro outside
  apply moves
  rw [up, Array.getD_eq_getD_getElem?, Array.getElem?_eq_none (by omega), Option.getD_none]

theorem up_set {child parent : Nat} (linked : next.parent = sets.parent.setIfInBounds child parent)
    (inside : child < sets.parent.size) (node : Nat) :
    next.up node = if node = child then parent else sets.up node := by
  simp only [up, linked, Array.getD_eq_getD_getElem?, Array.getElem?_setIfInBounds]
  by_cases he : node = child
  · subst he
    simp [inside]
  · simp [he, Ne.symm he]

namespace Under

theorem root (h : Under sets top steps node) : sets.up top = top := by
  induction h with
  | top root => exact root
  | step _ _ ih => exact ih

theorem unique (h : Under sets top steps node) (h' : Under sets other fewer node) :
    top = other ∧ steps = fewer := by
  induction h generalizing fewer with
  | top root =>
    cases h' with
    | top _ => exact ⟨rfl, rfl⟩
    | step moves _ => exact absurd root moves
  | step moves _ ih =>
    cases h' with
    | top root => exact absurd root moves
    | step _ later =>
      obtain ⟨same, count⟩ := ih later
      exact ⟨same, congrArg (· + 1) count⟩

theorem of_root (root : sets.up node = node) (h : Under sets top steps node) : top = node :=
  (h.unique (.top root)).1

/-- Two links up never lead back. -/
theorem up_up_ne (moves : sets.up node ≠ node) (h : Under sets top steps (sets.up node)) :
    sets.up (sets.up node) ≠ node := by
  intro back
  cases h with
  | top root => exact moves (root ▸ back)
  | step moves' later =>
    rw [back] at later
    have hu := later.unique (.step moves (.step moves' (back.symm ▸ later)))
    omega

theorem iterate (count : Nat) (h : Under sets top (steps + count) node) :
    Under sets top steps (sets.up^[count] node) := by
  induction count generalizing node with
  | zero => exact h
  | succ count ih =>
    cases h with
    | step _ later => exact ih later

/-- A path has different nodes, so it is no longer than there are nodes. -/
theorem steps_le (h : Under sets top steps node) : steps ≤ sets.parent.size := by
  have ahead : ∀ count < steps,
      Under sets top (steps - count) (sets.up^[count] node) := by
    intro count hc
    apply iterate
    rwa [Nat.sub_add_cancel (Nat.le_of_lt hc)]
  have inside : ∀ count ∈ Finset.range steps,
      sets.up^[count] node ∈ Finset.range sets.parent.size := by
    intro count hc
    rw [Finset.mem_range] at hc ⊢
    have hu := ahead count hc
    obtain ⟨left, hl⟩ := Nat.exists_eq_add_of_lt hc
    rw [show steps - count = left + 1 by omega] at hu
    cases hu with
    | step moves _ => exact lt_of_up_ne moves
  -- A node met twice would be at two distances from the root.
  have different : Set.InjOn (fun count => sets.up^[count] node) (Finset.range steps) := by
    intro i hi j hj same
    have ho := (ahead i (Finset.mem_range.mp hi)).unique
      ((show sets.up^[i] node = sets.up^[j] node from same) ▸ ahead j (Finset.mem_range.mp hj))
    have hi := Finset.mem_range.mp hi
    have hj := Finset.mem_range.mp hj
    omega
  have hc := Finset.card_le_card_of_injOn _ inside different
  rwa [Finset.card_range, Finset.card_range] at hc

end Under

/-- The rank of a node; a number out of range has none. -/
def rankOf (sets : DisjointSets) (node : Nat) : Nat := sets.rank.getD node 0

def Rising (sets : DisjointSets) : Prop :=
  ∀ node, sets.up node ≠ node → sets.rankOf node < sets.rankOf (sets.up node)

/-- Every node is under the root it was under before, by no longer a path, and has its rank. -/
structure Flatter (sets next : DisjointSets) : Prop where
  size : next.parent.size = sets.parent.size
  rank : next.rank = sets.rank
  under : ∀ {top steps node}, Under sets top steps node →
    ∃ fewer, fewer ≤ steps ∧ Under next top fewer node
  inside : ∀ bound, (∀ node < bound, sets.up node < bound) → ∀ node < bound, next.up node < bound
  rising : Rising sets → Rising next

theorem Flatter.refl (sets : DisjointSets) : Flatter sets sets :=
  ⟨rfl, rfl, fun h => ⟨_, Nat.le_refl _, h⟩, fun _ h => h, id⟩

theorem Flatter.trans {last : DisjointSets} (first : Flatter sets next)
    (second : Flatter next last) : Flatter sets last := by
  refine ⟨second.size.trans first.size, second.rank.trans first.rank, ?_, ?_, ?_⟩
  · intro top steps node h
    obtain ⟨fewer, hf, h'⟩ := first.under h
    obtain ⟨fewest, hs, h''⟩ := second.under h'
    exact ⟨fewest, hs.trans hf, h''⟩
  · exact fun bound h => second.inside bound (first.inside bound h)
  · exact fun h => second.rising (first.rising h)

def halve (sets : DisjointSets) (node : Nat) : DisjointSets :=
  { sets with parent := sets.parent.setIfInBounds node (sets.up (sets.up node)) }

theorem up_halve (moves : sets.up node ≠ node) (start : Nat) :
    (sets.halve node).up start =
      if start = node then sets.up (sets.up node) else sets.up start :=
  up_set rfl (lt_of_up_ne moves) start

/-- By induction on the path: only the link out of `node` changes, and it skips one node. -/
theorem Under.halve (moves : sets.up node ≠ node) {top steps start : Nat}
    (h : Under sets top steps start) :
    ∃ fewer, fewer ≤ steps ∧ Under (sets.halve node) top fewer start := by
  have up := up_halve moves
  induction h with
  | top root =>
    have other : top ≠ node := by
      intro he
      rw [he] at root
      exact moves root
    refine ⟨0, Nat.le_refl _, .top ?_⟩
    rw [up, if_neg other, root]
  | @step steps start moves' later ih =>
    obtain ⟨fewer, hf, shorter⟩ := ih
    by_cases he : start = node
    · subst he
      have back := later.up_up_ne moves'
      have there : (sets.halve start).up start = sets.up (sets.up start) := by rw [up, if_pos rfl]
      have above : (sets.halve start).up (sets.up start) = sets.up (sets.up start) := by
        rw [up, if_neg moves']
      cases shorter with
      | top root =>
        refine ⟨1, by omega, .step (by rwa [there]) ?_⟩
        rw [there, ← above, root]
        exact .top root
      | @step fewer _ _ shorter =>
        refine ⟨fewer + 1, by omega, .step (by rwa [there]) ?_⟩
        rwa [there, ← above]
    · have there : (sets.halve node).up start = sets.up start := by rw [up, if_neg he]
      exact ⟨fewer + 1, by omega, .step (by rwa [there]) (by rwa [there])⟩

theorem Rising.halve (rising : Rising sets) (moves : sets.up node ≠ node) :
    Rising (sets.halve node) := by
  intro start moves'
  change sets.rankOf start < sets.rankOf _
  rw [up_halve moves] at moves' ⊢
  split
  · rename_i he
    subst he
    have first := rising start moves
    by_cases root : sets.up (sets.up start) = sets.up start
    · rwa [root]
    · exact first.trans (rising _ root)
  · rename_i he
    rw [if_neg he] at moves'
    exact rising start moves'

theorem Flatter.halve (moves : sets.up node ≠ node) : Flatter sets (sets.halve node) := by
  refine ⟨Array.size_setIfInBounds, rfl, Under.halve moves, ?_, fun rising => rising.halve moves⟩
  intro bound inside start hs
  rw [up_halve moves]
  split
  · rename_i he
    subst he
    exact inside _ (inside _ hs)
  · exact inside start hs

/-- The walk up from a node. It ends at a root; any other node is linked to its grandparent, and the
walk goes on from there. -/
inductive Walk : Nat → DisjointSets → Nat → Nat × DisjointSets → Prop
  | done {sets : DisjointSets} {node : Nat} : sets.up node = node → Walk 0 sets node (node, sets)
  | halve {sets : DisjointSets} {node rounds : Nat} {found : Nat × DisjointSets} :
      sets.up node ≠ node → Walk rounds (sets.halve node) (sets.up (sets.up node)) found →
      Walk (rounds + 1) sets node found

theorem Under.grandparent (h : Under sets top (steps + 1) node) :
    ∃ fewer, fewer ≤ steps ∧ Under sets top fewer (sets.up (sets.up node)) := by
  cases h with
  | step _ later =>
    cases later with
    | top root => exact ⟨0, Nat.zero_le _, root.symm ▸ .top root⟩
    | step _ later => exact ⟨_, Nat.le_succ _, later⟩

/-- A walk ends at the root and only flattens the paths. -/
theorem Walk.spec {rounds : Nat} {found : Nat × DisjointSets} (walk : Walk rounds sets node found)
    (h : Under sets top steps node) : found.1 = top ∧ Flatter sets found.2 := by
  induction walk generalizing steps with
  | done root => exact ⟨(h.of_root root).symm, .refl _⟩
  | halve moves _ ih =>
    have halved := Flatter.halve moves
    cases h with
    | top root => exact absurd root moves
    | step moves later =>
      obtain ⟨_, _, above⟩ := (Under.step moves later).grandparent
      obtain ⟨_, _, left⟩ := halved.under above
      obtain ⟨ended, flatter⟩ := ih left
      exact ⟨ended, halved.trans flatter⟩

/-- The walk ends, in no more rounds than there are steps to the root. -/
theorem exists_walk {fuel : Nat} (h : Under sets top steps node) (enough : steps ≤ fuel) :
    ∃ rounds, rounds ≤ steps ∧ Walk rounds sets node (sets.climb fuel node) := by
  induction fuel generalizing sets node steps with
  | zero =>
    cases h with
    | top root => exact ⟨0, Nat.le_refl _, .done root⟩
    | step _ _ => omega
  | succ fuel ih =>
    rw [climb]
    split
    · rename_i root
      exact ⟨0, Nat.zero_le _, .done root⟩
    · rename_i moves
      have halved := Flatter.halve moves
      cases h with
      | top root => exact absurd root moves
      | @step steps _ _ later =>
        obtain ⟨fewer, hf, above⟩ := (Under.step moves later).grandparent
        obtain ⟨fewest, hs, left⟩ := halved.under above
        obtain ⟨rounds, hr, walk⟩ := ih left (by omega)
        exact ⟨rounds + 1, by omega, .halve moves walk⟩

theorem find_spec (h : Under sets top steps node) :
    (sets.find node).1 = top ∧ Flatter sets (sets.find node).2 := by
  obtain ⟨_, _, walk⟩ := exists_walk h h.steps_le
  exact walk.spec h

theorem Under.root_eq (h : Under sets top steps node) : sets.root node = top :=
  (find_spec h).1

/-- A forest on the nodes of the sets: every node is under a root, and no link leads outside. -/
structure Forest (sets : DisjointSets) : Prop where
  rooted : ∀ node, ∃ top steps, Under sets top steps node
  inside : ∀ node < sets.parent.size, sets.up node < sets.parent.size

theorem Forest.under_root (forest : Forest sets) (node : Nat) :
    ∃ steps, Under sets (sets.root node) steps node := by
  obtain ⟨top, steps, h⟩ := forest.rooted node
  exact ⟨steps, h.root_eq.symm ▸ h⟩

theorem Forest.root_lt (forest : Forest sets) (hn : node < sets.parent.size) :
    sets.root node < sets.parent.size := by
  have below : ∀ {top steps node}, Under sets top steps node → node < sets.parent.size →
      top < sets.parent.size := by
    intro top steps node h
    induction h with
    | top _ => exact id
    | step _ _ ih => exact fun hn => ih (forest.inside _ hn)
  obtain ⟨steps, h⟩ := forest.under_root node
  exact below h hn

theorem Forest.flatter (forest : Forest sets) (flatter : Flatter sets next) : Forest next := by
  refine ⟨fun node => ?_, flatter.size ▸ flatter.inside _ forest.inside⟩
  obtain ⟨top, steps, h⟩ := forest.rooted node
  obtain ⟨fewer, _, h'⟩ := flatter.under h
  exact ⟨top, fewer, h'⟩

theorem Forest.root_flatter (forest : Forest sets) (flatter : Flatter sets next) (node : Nat) :
    next.root node = sets.root node := by
  obtain ⟨steps, h⟩ := forest.under_root node
  obtain ⟨fewer, _, h'⟩ := flatter.under h
  exact h'.root_eq

/-- Hanging one root under another moves exactly the nodes that were under it. -/
theorem Forest.hang (forest : Forest sets) {child parent : Nat} (childRoot : sets.up child = child)
    (parentRoot : sets.up parent = parent) (different : child ≠ parent)
    (hc : child < sets.parent.size) (hp : parent < sets.parent.size)
    (linked : next.parent = sets.parent.setIfInBounds child parent) :
    Forest next ∧ next.parent.size = sets.parent.size ∧
      ∀ node, next.root node = if sets.root node = child then parent else sets.root node := by
  have up := up_set linked hc
  have size : next.parent.size = sets.parent.size := by rw [linked, Array.size_setIfInBounds]
  have parentTop : Under next parent 0 parent := by
    apply Under.top
    rw [up, if_neg different.symm, parentRoot]
  have moved : ∀ {top steps node}, Under sets top steps node →
      ∃ more, Under next (if top = child then parent else top) more node := by
    intro top steps node h
    induction h with
    | top root =>
      by_cases he : top = child
      · subst he
        rw [if_pos rfl]
        refine ⟨1, .step ?_ ?_⟩
        · rw [up, if_pos rfl]
          exact different.symm
        · rw [up, if_pos rfl]
          exact parentTop
      · rw [if_neg he]
        refine ⟨0, .top ?_⟩
        rw [up, if_neg he, root]
    | @step steps node moves _ ih =>
      obtain ⟨more, h'⟩ := ih
      have stays : next.up node = sets.up node := by
        rw [up, if_neg]
        intro he
        subst he
        exact moves childRoot
      exact ⟨more + 1, .step (by rwa [stays]) (by rwa [stays])⟩
  refine ⟨⟨fun node => ?_, ?_⟩, size, fun node => ?_⟩
  · obtain ⟨top, steps, h⟩ := forest.rooted node
    obtain ⟨more, h'⟩ := moved h
    exact ⟨_, more, h'⟩
  · intro node hn
    rw [size] at hn ⊢
    rw [up]
    split
    · exact hp
    · exact forest.inside node hn
  · obtain ⟨steps, h⟩ := forest.under_root node
    obtain ⟨more, h'⟩ := moved h
    exact h'.root_eq

theorem up_singletons (count node : Nat) : (singletons count).up node = node := by
  simp only [up, singletons, Array.getD_eq_getD_getElem?, List.getElem?_toArray]
  by_cases hn : node < count
  · rw [List.getElem?_range hn, Option.getD_some]
  · rw [List.getElem?_eq_none (by simpa using hn), Option.getD_none]

theorem root_singletons (count node : Nat) : (singletons count).root node = node :=
  (Under.top (up_singletons count node)).root_eq

theorem forest_singletons (count : Nat) :
    Forest (singletons count) ∧ (singletons count).parent.size = count := by
  have size : (singletons count).parent.size = count := by simp [singletons]
  refine ⟨⟨fun node => ⟨node, 0, .top (up_singletons count node)⟩, ?_⟩, size⟩
  intro node hn
  rwa [up_singletons]

/-- One root hung under another whose rank is not smaller, and grows if both had the same. -/
structure Hung (sets next : DisjointSets) (child parent : Nat) : Prop where
  linked : next.parent = sets.parent.setIfInBounds child parent
  ranked : sets.rankOf child < sets.rankOf parent ∧ next.rank = sets.rank ∨
    sets.rankOf child = sets.rankOf parent ∧
      next.rank = sets.rank.setIfInBounds parent (sets.rankOf parent + 1)

/-- Once both roots are found, uniting hangs one of them under the other if these are two. -/
theorem unite_cases (sets : DisjointSets) (a b : Nat) :
    let above := sets.find a
    let across := above.2.find b
    (above.1 = across.1 ∧ sets.unite a b = across.2) ∨
      above.1 ≠ across.1 ∧ ∃ child parent,
        (child = above.1 ∧ parent = across.1 ∨ child = across.1 ∧ parent = above.1) ∧
        Hung across.2 (sets.unite a b) child parent := by
  intro above across
  simp only [unite]
  by_cases same : above.1 = across.1
  · exact .inl ⟨same, if_pos same⟩
  · refine .inr ⟨same, ?_⟩
    rw [if_neg same]
    split
    · rename_i less
      exact ⟨above.1, across.1, .inl ⟨rfl, rfl⟩, rfl, .inl ⟨less, rfl⟩⟩
    · rename_i notLess
      split
      · rename_i more
        exact ⟨across.1, above.1, .inr ⟨rfl, rfl⟩, rfl, .inl ⟨more, rfl⟩⟩
      · rename_i notMore
        have equal := Nat.le_antisymm (Nat.not_lt.mp notLess) (Nat.not_lt.mp notMore)
        exact ⟨across.1, above.1, .inr ⟨rfl, rfl⟩, rfl, .inr ⟨equal, rfl⟩⟩

/-- Uniting two nodes flattens the paths, and hangs the root of one under the root of the other if
these are two. -/
theorem Forest.unite_hung (forest : Forest sets) (a b : Nat) :
    ∃ between, Flatter sets between ∧
      (sets.root a = sets.root b ∧ sets.unite a b = between ∨
        sets.root a ≠ sets.root b ∧ ∃ child parent,
          (child = sets.root a ∧ parent = sets.root b ∨
            child = sets.root b ∧ parent = sets.root a) ∧
          Hung between (sets.unite a b) child parent) := by
  obtain ⟨_, underA⟩ := forest.under_root a
  obtain ⟨foundA, flatA⟩ := find_spec underA
  obtain ⟨_, underB⟩ := (forest.flatter flatA).under_root b
  obtain ⟨foundB, flatB⟩ := find_spec underB
  rw [forest.root_flatter flatA] at foundB
  have united := unite_cases sets a b
  simp only [foundA, foundB] at united
  exact ⟨_, flatA.trans flatB, united⟩

theorem Forest.up_root_flatter (forest : Forest sets) (flatter : Flatter sets next) (node : Nat) :
    next.up (sets.root node) = sets.root node := by
  obtain ⟨steps, h⟩ := (forest.flatter flatter).under_root node
  rw [← forest.root_flatter flatter]
  exact h.root

/-- Uniting two nodes gives the root of one of them to all nodes that shared a root with either, and
leaves every other node under its root. -/
theorem Forest.unite (forest : Forest sets) {a b : Nat} (ha : a < sets.parent.size)
    (hb : b < sets.parent.size) :
    Forest (sets.unite a b) ∧ (sets.unite a b).parent.size = sets.parent.size ∧
      ∃ top, (top = sets.root a ∨ top = sets.root b) ∧ ∀ node, (sets.unite a b).root node =
        if sets.root node = sets.root a ∨ sets.root node = sets.root b then top
        else sets.root node := by
  obtain ⟨between, flatter, united⟩ := forest.unite_hung a b
  have roots := forest.root_flatter flatter
  have fixed := forest.up_root_flatter flatter
  rcases united with ⟨same, he⟩ | ⟨different, child, parent, ends, hung⟩
  · rw [he]
    refine ⟨forest.flatter flatter, flatter.size, sets.root a, .inl rfl, fun node => ?_⟩
    rw [roots, ← same]
    split
    · rename_i shared
      exact shared.elim id id
    · rfl
  · have insideA := flatter.size.symm ▸ forest.root_lt ha
    have insideB := flatter.size.symm ▸ forest.root_lt hb
    have moved : ∀ root child parent : Nat, (if root = child then parent else root) =
        if root = child ∨ root = parent then parent else root := by
      intro root child parent
      by_cases hp : root = parent
      · simp [hp]
      · simp [hp]
    rcases ends with ⟨rfl, rfl⟩ | ⟨rfl, rfl⟩
    · obtain ⟨forest', size, moves⟩ := (forest.flatter flatter).hang (fixed a) (fixed b) different
        insideA insideB hung.linked
      refine ⟨forest', size.trans flatter.size, sets.root b, .inr rfl, fun node => ?_⟩
      rw [moves, roots, moved]
    · obtain ⟨forest', size, moves⟩ := (forest.flatter flatter).hang (fixed b) (fixed a)
        (Ne.symm different) insideB insideA hung.linked
      refine ⟨forest', size.trans flatter.size, sets.root a, .inl rfl, fun node => ?_⟩
      rw [moves, roots, moved]
      simp only [or_comm]

/-- Two nodes share a root once `a` and `b` are united exactly if they shared one before, or if one
of them was under the root of `a` and the other under that of `b`. -/
theorem Forest.root_unite_iff (forest : Forest sets) {a b : Nat} (ha : a < sets.parent.size)
    (hb : b < sets.parent.size) {node other : Nat} :
    (sets.unite a b).root node = (sets.unite a b).root other ↔
      sets.root node = sets.root other ∨
        (sets.root node = sets.root a ∧ sets.root other = sets.root b) ∨
        (sets.root node = sets.root b ∧ sets.root other = sets.root a) := by
  obtain ⟨_, _, top, chosen, united⟩ := forest.unite ha hb
  rw [united, united]
  -- A node that was not moved is not under `top`, which was the root of `a` or of `b`.
  split <;> split <;> grind

/-- Finding one root after the other flattens paths on the way, but no root changes by it. -/
theorem Forest.roots_eq (forest : Forest sets) (nodes : List Nat) :
    sets.roots nodes = nodes.map sets.root := by
  induction nodes generalizing sets with
  | nil => rfl
  | cons node nodes ih =>
    obtain ⟨steps, under⟩ := forest.under_root node
    have flatter := (find_spec under).2
    have kept : (sets.find node).2.root = sets.root := funext (forest.root_flatter flatter)
    change sets.root node :: (sets.find node).2.roots nodes = _
    rw [ih (forest.flatter flatter), kept, List.map_cons]

end GroupedLedger.DisjointSets
