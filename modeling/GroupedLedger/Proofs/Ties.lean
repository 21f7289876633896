import GroupedLedger.Proofs.DisjointSets
import GroupedLedger.Proofs.Slots
import Mathlib.Logic.Relation

namespace GroupedLedger.Grouping

def Names (keys : List (List Key)) (key : Key) (place : Nat) : Prop :=
  ∃ own, keys[place]? = some own ∧ key ∈ own

/-- A chain of places leads from one to the other, with a key in common at every link. -/
def Chained (keys : List (List Key)) : Nat → Nat → Prop :=
  Relation.ReflTransGen fun a b => ∃ key, Names keys key a ∧ Names keys key b

theorem Chained.symm {keys : List (List Key)} {a b : Nat} (h : Chained keys a b) :
    Chained keys b a := by
  induction h with
  | refl => exact .refl
  | tail _ shared ih =>
    obtain ⟨key, first, second⟩ := shared
    exact .head ⟨key, second, first⟩ ih

/-- What tying has established once it has seen some places name keys: every place is under the root
of the first place that named the same key, and only chained places are under one root. -/
structure Ties.Sound (keys : List (List Key)) (named : Key → Nat → Prop) (ties : Ties) : Prop where
  forest : ties.sets.Forest
  size : ties.sets.parent.size = keys.length
  first : ∀ (key : Key) (place : Nat), ties.first[key]? = some place → Names keys key place
  tied : ∀ (key : Key) (place : Nat), named key place →
    ∃ other, ties.first[key]? = some other ∧ ties.sets.root place = ties.sets.root other
  chained : ∀ a b, ties.sets.root a = ties.sets.root b → Chained keys a b

theorem Names.lt {keys : List (List Key)} {key : Key} {place : Nat} (h : Names keys key place) :
    place < keys.length := by
  obtain ⟨own, here, _⟩ := h
  exact (List.getElem?_eq_some_iff.mp here).1

namespace Ties.Sound

variable {keys : List (List Key)} {place : Nat} {named fewer : Key → Nat → Prop} {ties : Ties}
  {key : Key}

theorem mono (h : Sound keys named ties) (less : ∀ key place, fewer key place → named key place) :
    Sound keys fewer ties :=
  ⟨h.forest, h.size, h.first, fun key place hn => h.tied key place (less key place hn), h.chained⟩

/-- A key that no place has named so far is kept with the place. -/
theorem keep (h : Sound keys named ties) (own : Names keys key place)
    (unnamed : ties.first[key]? = none) :
    Sound keys (fun other at' => named other at' ∨ other = key ∧ at' = place)
      { ties with first := ties.first.insert key place } := by
  refine ⟨h.forest, h.size, ?_, ?_, h.chained⟩
  · intro other holder found
    rcases (getElem?_insert_new unnamed place).mp found with ⟨rfl, rfl⟩ | before
    · exact own
    · exact h.first other holder before
  · rintro other at' (hn | ⟨rfl, rfl⟩)
    · obtain ⟨holder, before, same⟩ := h.tied other at' hn
      exact ⟨holder, (getElem?_insert_new unnamed place).mpr (.inr before), same⟩
    · exact ⟨at', (getElem?_insert_new unnamed at').mpr (.inl ⟨rfl, rfl⟩), rfl⟩

/-- A key that was named before brings the place under the root of its first place. -/
theorem unite (h : Sound keys named ties) (own : Names keys key place) {holder : Nat}
    (known : ties.first[key]? = some holder) :
    Sound keys (fun other at' => named other at' ∨ other = key ∧ at' = place)
      { ties with sets := ties.sets.unite place holder } := by
  have holds := h.first key holder known
  have inside : place < ties.sets.parent.size := h.size.symm ▸ own.lt
  have held : holder < ties.sets.parent.size := h.size.symm ▸ holds.lt
  obtain ⟨forest, size, top, _, united⟩ := h.forest.unite inside held
  refine ⟨forest, size.trans h.size, h.first, ?_, ?_⟩
  · rintro other at' (hn | ⟨rfl, rfl⟩)
    · obtain ⟨first, ho, same⟩ := h.tied other at' hn
      refine ⟨first, ho, ?_⟩
      rw [united, united, same]
    · refine ⟨holder, known, ?_⟩
      rw [united, united, if_pos (.inl rfl), if_pos (.inr rfl)]
  -- Whatever is brought under one root is linked through the key just named.
  · intro a b together
    have link : Chained keys place holder := .single ⟨key, own, holds⟩
    rcases (h.forest.root_unite_iff inside held).mp together with
      same | ⟨first, second⟩ | ⟨first, second⟩
    · exact h.chained a b same
    · exact ((h.chained a place first).trans link).trans (h.chained b holder second).symm
    · exact ((h.chained a holder first).trans link.symm).trans (h.chained b place second).symm

theorem tie (h : Sound keys named ties) (own : Names keys key place) :
    Sound keys (fun other at' => named other at' ∨ other = key ∧ at' = place)
      (Ties.tie place ties key) := by
  unfold Ties.tie
  cases found : ties.first[key]? with
  | none => exact h.keep own found
  | some holder => exact h.unite own found

theorem tieAll (h : Sound keys named ties) {own : List Key} (names : ∀ key ∈ own, Names keys key place) :
    Sound keys (fun other at' => named other at' ∨ other ∈ own ∧ at' = place)
      (ties.tieAll own place) := by
  induction own generalizing named ties with
  | nil => exact h.mono fun _ _ hn => hn.resolve_right (by simp)
  | cons key own ih =>
    refine (ih (h.tie (names key (by simp))) fun other hm => names other (by simp [hm])).mono ?_
    rintro other at' (hn | ⟨hm, rfl⟩)
    · exact .inl (.inl hn)
    · rcases List.mem_cons.mp hm with rfl | hm
      · exact .inl (.inr ⟨rfl, rfl⟩)
      · exact .inr ⟨hm, rfl⟩

theorem foldl (h : Sound keys named ties) {entries : List (List Key × Nat)}
    (names : ∀ entry ∈ entries, ∀ key ∈ entry.1, Names keys key entry.2) :
    Sound keys
      (fun key place => named key place ∨ ∃ entry ∈ entries, key ∈ entry.1 ∧ place = entry.2)
      (entries.foldl (fun ties entry => ties.tieAll entry.1 entry.2) ties) := by
  induction entries generalizing named ties with
  | nil => exact h.mono fun _ _ hn => hn.resolve_right (by simp)
  | cons entry entries ih =>
    refine (ih (h.tieAll (names entry (by simp))) fun other hm =>
      names other (by simp [hm])).mono ?_
    rintro key place (hn | ⟨named, hm, hk, rfl⟩)
    · exact .inl (.inl hn)
    · rcases List.mem_cons.mp hm with rfl | hm
      · exact .inl (.inr ⟨hk, rfl⟩)
      · exact .inr ⟨named, hm, hk, rfl⟩

end Ties.Sound

theorem tied_sound (keys : List (List Key)) :
    ∃ ties : Ties, ties.sets = tied keys ∧ ties.Sound keys (Names keys) := by
  have start : Ties.Sound keys (fun _ _ => False) ⟨.singletons keys.length, ∅⟩ := by
    obtain ⟨forest, size⟩ := DisjointSets.forest_singletons keys.length
    refine ⟨forest, size, ?_, fun _ _ none => none.elim, ?_⟩
    · intro key place hf
      rw [Std.ExtTreeMap.getElem?_empty] at hf
      cases hf
    · intro a b same
      rw [DisjointSets.root_singletons, DisjointSets.root_singletons] at same
      exact same ▸ .refl
  refine ⟨_, rfl, (start.foldl ?_).mono ?_⟩
  · intro entry mem key own
    exact ⟨entry.1, List.mem_zipIdx_iff_getElem?.mp mem, own⟩
  · rintro key place ⟨own, here, mem⟩
    exact .inr ⟨(own, place), List.mem_zipIdx_iff_getElem?.mpr here, mem, rfl⟩

theorem forest_tied (keys : List (List Key)) : (tied keys).Forest := by
  obtain ⟨ties, same, sound⟩ := tied_sound keys
  exact same ▸ sound.forest

/-- Places that share a key are under one root. -/
theorem tied_root {keys : List (List Key)} {key : Key} {one other : Nat}
    (first : Names keys key one) (second : Names keys key other) :
    (tied keys).root one = (tied keys).root other := by
  obtain ⟨ties, same, sound⟩ := tied_sound keys
  -- Both places are under the root of the place that named the key first.
  obtain ⟨holder, found, under⟩ := sound.tied key one first
  obtain ⟨holder', found', under'⟩ := sound.tied key other second
  rw [found] at found'
  cases found'
  rw [← same, under, under']

/-- Places are under one root exactly if a chain of shared keys links them. -/
theorem tied_root_iff {keys : List (List Key)} {a b : Nat} :
    (tied keys).root a = (tied keys).root b ↔ Chained keys a b := by
  constructor
  · intro same
    obtain ⟨ties, he, sound⟩ := tied_sound keys
    exact sound.chained a b (he ▸ same)
  · intro chain
    induction chain with
    | refl => rfl
    | tail _ shared ih =>
      obtain ⟨key, first, second⟩ := shared
      exact ih.trans (tied_root first second)

end GroupedLedger.Grouping
