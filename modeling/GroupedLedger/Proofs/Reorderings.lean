import GroupedLedger.Proofs.Shuffles
import Mathlib.Data.Fin.VecNotation
import Mathlib.Data.List.FinRange

namespace GroupedLedger

/-- One list as a reordering of another: where each item goes. Of two items that are tied, the first
stays the first. -/
structure Reordering {α : Type} (tied : α → α → Prop) (items others : List α) where
  place : Fin items.length ≃ Fin others.length
  same : ∀ i, others[place i] = items[i]
  ordered : ∀ i j, i < j → tied items[i] items[j] → place i < place j

/-- If nothing is tied to what it has overtaken, all get to their places by swaps of neighbours. -/
theorem Shuffle.of_sorted {ι : Type} [Preorder ι] {tied free : ι → ι → Prop}
    (pass : ∀ a b, ¬ tied b a → free a b) {items others : List ι}
    (sorted : items.Pairwise (· < ·)) (perm : items.Perm others)
    (kept : others.Pairwise fun a b => tied a b → a < b) : Shuffle free items others := by
  induction items generalizing others with
  | nil =>
    rw [← perm.nil_eq]
    exact .refl []
  | cons item items ih =>
    obtain ⟨first, sorted⟩ := List.pairwise_cons.mp sorted
    obtain ⟨front, back, he⟩ := List.append_of_mem (perm.subset List.mem_cons_self)
    subst he
    have rest : items.Perm (front ++ back) := (perm.trans List.perm_middle).cons_inv
    -- What now stands before the first item came after it, so it cannot be tied to it.
    have ahead : ∀ other ∈ front, free item other := by
      intro other hm
      apply pass
      intro isTied
      have after := first other (rest.symm.subset (List.mem_append_left back hm))
      have before := (List.pairwise_append.mp kept).2.2 other hm item (by simp) isTied
      exact lt_asymm after before
    have without : (front ++ back).Sublist (front ++ item :: back) :=
      (List.sublist_cons_self item back).append_left front
    exact (Shuffle.cons item (ih sorted rest (kept.sublist without))).trans (past back ahead)

namespace Reordering

variable {α : Type} {tied : α → α → Prop} {items others : List α}

def order (h : Reordering tied items others) : List (Fin items.length) :=
  (List.finRange others.length).map h.place.symm

theorem order_perm (h : Reordering tied items others) :
    (List.finRange items.length).Perm h.order := by
  have nodup : h.order.Nodup := (List.nodup_finRange _).map h.place.symm.injective
  apply (List.perm_ext_iff_of_nodup (List.nodup_finRange _) nodup).mpr
  intro i
  have mem : i ∈ h.order := List.mem_map.mpr ⟨h.place i, List.mem_finRange _, by simp⟩
  simp [mem]

theorem map_order (h : Reordering tied items others) : h.order.map items.get = others := by
  have same : items.get ∘ h.place.symm = others.get := by
    funext i
    have moved := h.same (h.place.symm i)
    simpa using moved.symm
  rw [order, List.map_map, same, List.map_get_finRange]

theorem order_kept (h : Reordering tied items others) (symm : ∀ a b, tied a b → tied b a) :
    h.order.Pairwise fun i j => tied (items.get i) (items.get j) → i < j := by
  rw [order, List.pairwise_map]
  refine (List.pairwise_lt_finRange _).imp ?_
  intro i j before isTied
  by_contra late
  rcases (not_lt.mp late).lt_or_eq with overtaken | same
  · have after := h.ordered _ _ overtaken (symm _ _ isTied)
    rw [Equiv.apply_symm_apply, Equiv.apply_symm_apply] at after
    exact lt_asymm before after
  · exact before.ne (h.place.symm.injective same).symm

/-- A reordering comes about by swaps of neighbours that are not tied. -/
theorem shuffle (h : Reordering tied items others) (symm : ∀ a b, tied a b → tied b a)
    {free : α → α → Prop} (pass : ∀ a b, ¬ tied b a → free a b) :
    Shuffle (fun i j => free (items.get i) (items.get j)) (List.finRange items.length) h.order :=
  Shuffle.of_sorted (fun _ _ => pass _ _) (List.pairwise_lt_finRange _) h.order_perm
    (h.order_kept symm)

theorem eq_place_of_order (h : Reordering tied items others) {place : Nat} {i : Fin items.length}
    (found : h.order[place]? = some i) : place = h.place i := by
  rw [order, List.getElem?_map, Option.map_eq_some_iff] at found
  obtain ⟨j, hj, rfl⟩ := found
  obtain ⟨inside, rfl⟩ := List.getElem?_eq_some_iff.mp hj
  simp

end Reordering

namespace Transaction

variable {a b : Transaction}

/-- Both make a call, and the two calls have a key of their own in common. -/
def Dependent (a b : Transaction) : Prop :=
  ∃ call other, Call.decode a = .ok call ∧ Call.decode b = .ok other ∧
    ∃ key ∈ call.resources a.sender, key ∈ other.resources b.sender

theorem dependent_iff : a.Dependent b ↔ ∃ key ∈ a.resources, key ∈ b.resources := by
  unfold Dependent resources
  cases Call.decode a with
  | error error => simp
  | ok call =>
    cases Call.decode b with
    | error error => simp
    | ok other => simp

instance : DecidableRel Dependent := fun _ _ => decidable_of_iff _ dependent_iff.symm

theorem Dependent.symm (dependent : a.Dependent b) : b.Dependent a := by
  obtain ⟨key, first, second⟩ := dependent_iff.mp dependent
  exact dependent_iff.mpr ⟨key, second, first⟩

theorem apart_of_not_dependent (free : ¬ b.Dependent a) : a.Apart b :=
  fun key first second => free (dependent_iff.mpr ⟨key, second, first⟩)

end Transaction

namespace Vm

theorem effects_reordered {transactions others : List Transaction}
    (h : Reordering Transaction.Dependent transactions others) (below : Lookup) :
    (∀ i, ∃ one, (effects below transactions)[i.val]? = some one ∧
      (effects below others)[(h.place i).val]? = some one) ∧
    Overlay.ofEffects (effects below transactions) = Overlay.ofEffects (effects below others) := by
  have shuffled : Shuffle (fun i j => (transactions.get i).Apart (transactions.get j))
      (List.finRange transactions.length) h.order :=
    h.shuffle (fun _ _ => Transaction.Dependent.symm) fun _ _ => Transaction.apart_of_not_dependent
  have labelled := effects_zip_perm transactions.get shuffled below
  have left := (effects_shuffle (shuffled.map transactions.get fun _ _ apart => apart) below).2
  rw [List.map_get_finRange, h.map_order] at labelled left
  refine ⟨?_, left⟩
  intro i
  have inside : i.val < (effects below transactions).length := by
    rw [length_effects]
    exact i.isLt
  refine ⟨(effects below transactions)[i.val], List.getElem?_eq_getElem inside, ?_⟩
  have here : (i, (effects below transactions)[i.val]) ∈
      (List.finRange transactions.length).zip (effects below transactions) := by
    apply List.mem_of_getElem? (i := i.val)
    rw [List.getElem?_zip_eq_some]
    simp [inside]
  obtain ⟨place, there⟩ := List.mem_iff_getElem?.mp (labelled.mem_iff.mp here)
  obtain ⟨came, noted⟩ := List.getElem?_zip_eq_some.mp there
  rw [← h.eq_place_of_order came]
  exact noted

/-- Transactions that do not depend on each other commute. If a batch is reordered and those that
depend on each other stay in order, every occurrence of a transaction has the effect it had before,
and the batch leaves the same pending. -/
theorem execute_reordered {transactions others : List Transaction}
    (h : Reordering Transaction.Dependent transactions others) {base : StateView}
    (calm : ∀ key, base.trips key = false) (overlay : Overlay) :
    ∃ effects reordered,
      execute transactions base overlay .quiet = (.ok effects, .quiet) ∧
      execute others base overlay .quiet = (.ok reordered, .quiet) ∧
      (∀ i, ∃ effect, effects[i.val]? = some effect ∧
        reordered[(h.place i).val]? = some effect) ∧
      Overlay.merge (some overlay) effects = Overlay.merge (some overlay) reordered := by
  obtain ⟨same, left⟩ := effects_reordered h (overlay.onto base.get?)
  refine ⟨_, _, execute_quiet calm transactions overlay, execute_quiet calm others overlay, same, ?_⟩
  rw [Overlay.merge, Overlay.merge, left]

end Vm

namespace Sample

/-- Where the four transactions of the block go. -/
def places : Fin 4 ≃ Fin 4 where
  toFun := ![1, 3, 2, 0]
  invFun := ![3, 0, 2, 1]
  left_inv := show ∀ i, _ from by decide
  right_inv := show ∀ i, _ from by decide

/-- The round moves to the front and the stray call to the end. The two payments touch what Bob has
and stay in order. -/
def reordering : Reordering Transaction.Dependent block [nextRound, payCarol, payBob, stray] where
  place := places
  same := by decide +kernel
  ordered := by decide +kernel

end Sample

/-- The payment to Carol, which fails, is then the second transaction and fails as it did as the
first. -/
theorem Vm.sample_reordered :
    ∃ effects reordered,
      execute Sample.block Sample.spoiled.view .empty .quiet = (.ok effects, .quiet) ∧
      execute [Sample.nextRound, Sample.payCarol, Sample.payBob, Sample.stray] Sample.spoiled.view
        .empty .quiet = (.ok reordered, .quiet) ∧
      effects[0]? = reordered[1]? ∧
      Overlay.merge (some .empty) effects = Overlay.merge (some .empty) reordered := by
  have calm : ∀ key, Sample.spoiled.view.trips key = false := fun _ => rfl
  obtain ⟨effects, reordered, ran, ranToo, same, left⟩ :=
    execute_reordered Sample.reordering calm .empty
  obtain ⟨effect, first, second⟩ := same (0 : Fin 4)
  exact ⟨effects, reordered, ran, ranToo, first.trans second.symm, left⟩

end GroupedLedger
