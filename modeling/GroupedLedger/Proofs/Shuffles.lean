import GroupedLedger.Proofs.Footprints
import Mathlib.Data.List.Basic

namespace GroupedLedger

/-- One list is the other after swaps of neighbours that are free to change places. -/
inductive Shuffle {α : Type} (free : α → α → Prop) : List α → List α → Prop
  | refl (items : List α) : Shuffle free items items
  | cons (item : α) {items others : List α} : Shuffle free items others →
      Shuffle free (item :: items) (item :: others)
  | swap {first second : α} (rest : List α) : free first second →
      Shuffle free (first :: second :: rest) (second :: first :: rest)
  | trans {items others last : List α} : Shuffle free items others → Shuffle free others last →
      Shuffle free items last

namespace Shuffle

variable {α β : Type} {free : α → α → Prop} {items others : List α}

theorem perm (h : Shuffle free items others) : items.Perm others := by
  induction h with
  | refl items => exact .refl items
  | cons item _ ih => exact .cons item ih
  | swap rest _ => exact .swap _ _ rest
  | trans _ _ ih ih' => exact ih.trans ih'

theorem map (f : α → β) {allowed : β → β → Prop} (carried : ∀ a b, free a b → allowed (f a) (f b))
    (h : Shuffle free items others) : Shuffle allowed (items.map f) (others.map f) := by
  induction h with
  | refl items => exact .refl _
  | cons item _ ih => exact .cons (f item) ih
  | swap rest swapped => exact .swap _ (carried _ _ swapped)
  | trans _ _ ih ih' => exact ih.trans ih'

theorem append_left (front : List α) (h : Shuffle free items others) :
    Shuffle free (front ++ items) (front ++ others) := by
  induction front with
  | nil => exact h
  | cons item _ ih => exact .cons item ih

theorem append_right (rest : List α) (h : Shuffle free items others) :
    Shuffle free (items ++ rest) (others ++ rest) := by
  induction h with
  | refl items => exact .refl _
  | cons item _ ih => exact .cons item ih
  | swap later swapped => exact .swap (later ++ rest) swapped
  | trans _ _ ih ih' => exact ih.trans ih'

theorem past {item : α} {front : List α} (rest : List α)
    (ahead : ∀ other ∈ front, free item other) :
    Shuffle free (item :: (front ++ rest)) (front ++ item :: rest) := by
  induction front with
  | nil => exact .refl _
  | cons other front ih =>
    have first := ahead other (by simp)
    have later := ih fun another hm => ahead another (by simp [hm])
    exact (Shuffle.swap (front ++ rest) first).trans (.cons other later)

/-- The items of one kind move to the front, if the others let them pass. -/
theorem front (kind : α → Bool) (items : List α)
    (pass : ∀ a ∈ items, ∀ b ∈ items, kind a = false → kind b = true → free a b) :
    Shuffle free items (items.filter kind ++ items.filter fun item => !kind item) := by
  induction items with
  | nil => exact .refl []
  | cons item items ih =>
    have later := ih fun a ha b hb => pass a (by simp [ha]) b (by simp [hb])
    cases hk : kind item with
    | true => simpa [hk] using Shuffle.cons item later
    | false =>
      have ahead : ∀ other ∈ items.filter kind, free item other := by
        intro other hm
        obtain ⟨hm, ho⟩ := List.mem_filter.mp hm
        exact pass item (by simp) other (by simp [hm]) hk ho
      simpa [hk] using (Shuffle.cons item later).trans (past _ ahead)

/-- Items sort into classes, one after the other, if different classes let each other pass. -/
theorem classes [BEq β] [LawfulBEq β] (label : α → β) {labels : List β} (nodup : labels.Nodup)
    {items : List α} (labelled : ∀ item ∈ items, label item ∈ labels)
    (pass : ∀ a ∈ items, ∀ b ∈ items, label a ≠ label b → free a b) :
    Shuffle free items
      (labels.flatMap fun shared => items.filter fun item => label item == shared) := by
  induction labels generalizing items with
  | nil =>
    have none : items = [] := List.eq_nil_iff_forall_not_mem.mpr fun item hm => by
      simpa using labelled item hm
    rw [none]
    exact .refl []
  | cons shared labels ih =>
    obtain ⟨fresh, nodup⟩ := List.nodup_cons.mp nodup
    have first : Shuffle free items ((items.filter fun item => label item == shared) ++
        items.filter fun item => !(label item == shared)) := by
      apply front
      intro a ha b hb other same
      apply pass a ha b hb
      intro he
      rw [he, same] at other
      cases other
    have rest := @ih nodup (items.filter fun item => !(label item == shared)) (by
      intro item hm
      obtain ⟨hm, hn⟩ := List.mem_filter.mp hm
      have hl := labelled item hm
      simp only [Bool.not_eq_true', beq_eq_false_iff_ne] at hn
      exact (List.mem_cons.mp hl).resolve_left hn) (by
      intro a ha b hb
      exact pass a (List.mem_filter.mp ha).1 b (List.mem_filter.mp hb).1)
    have same : (labels.flatMap fun other =>
        (items.filter fun item => !(label item == shared)).filter
          fun item => label item == other) =
        labels.flatMap fun other => items.filter fun item => label item == other := by
      apply List.flatMap_congr
      intro other ho
      rw [List.filter_filter]
      apply List.filter_congr
      intro item _
      cases he : label item == other with
      | false => rfl
      | true =>
        have hs : label item ≠ shared := fun hs => fresh (hs ▸ eq_of_beq he ▸ ho)
        simp [hs]
    rw [same] at rest
    exact first.trans (append_left _ rest)

end Shuffle

/-- The effects of one transaction's occurrences in a batch, in order. -/
def occurrences (tx : Transaction) (transactions : List Transaction) (effects : List Effect) :
    List Effect :=
  ((transactions.zip effects).filter fun entry => entry.1 = tx).map Prod.snd

section Occurrences

variable {tx : Transaction} {transactions : List Transaction} {effects : List Effect}

@[simp] theorem occurrences_cons (first : Transaction) (effect : Effect) :
    occurrences tx (first :: transactions) (effect :: effects) =
      if first = tx then effect :: occurrences tx transactions effects
      else occurrences tx transactions effects := by
  by_cases he : first = tx
  · simp [occurrences, he]
  · simp [occurrences, he]

theorem occurrences_append (same : effects.length = transactions.length)
    (rest : List Transaction) (later : List Effect) :
    occurrences tx (transactions ++ rest) (effects ++ later) =
      occurrences tx transactions effects ++ occurrences tx rest later := by
  rw [occurrences, List.zip_append same.symm, List.filter_append, List.map_append]
  rfl

theorem occurrences_map (f : Transaction → Effect) (transactions : List Transaction) :
    occurrences tx transactions (transactions.map f) =
      (transactions.filter (· = tx)).map f := by
  induction transactions with
  | nil => rfl
  | cons first rest ih =>
    rw [List.map_cons, occurrences_cons, ih]
    by_cases he : first = tx
    · simp [he]
    · simp [he]

theorem occurrences_map_effects (f : Effect → Effect) (transactions : List Transaction)
    (effects : List Effect) :
    occurrences tx transactions (effects.map f) = (occurrences tx transactions effects).map f := by
  induction transactions generalizing effects with
  | nil => rfl
  | cons first rest ih =>
    cases effects with
    | nil => rfl
    | cons effect effects =>
      rw [List.map_cons, occurrences_cons, occurrences_cons, ih]
      split <;> rfl

theorem mem_of_mem_occurrences {effect : Effect}
    (mem : effect ∈ occurrences tx transactions effects) : tx ∈ transactions := by
  obtain ⟨⟨first, noted⟩, hm, _⟩ := List.mem_map.mp mem
  obtain ⟨hz, same⟩ := List.mem_filter.mp hm
  rw [← of_decide_eq_true same]
  exact (List.of_mem_zip hz).1

/-- As long as only one transaction of a batch has a name, its occurrences are found by the name. -/
theorem filter_id (named : effects.map Effect.id = transactions.map Transaction.id)
    (only : ∀ other ∈ transactions, other.id = tx.id → other = tx) :
    effects.filter (fun effect => effect.id = tx.id) = occurrences tx transactions effects := by
  induction transactions generalizing effects with
  | nil =>
    rw [List.map_nil, List.map_eq_nil_iff] at named
    rw [named]
    rfl
  | cons first rest ih =>
    cases effects with
    | nil => cases named
    | cons effect effects =>
      rw [List.map_cons, List.map_cons, List.cons.injEq] at named
      have later := ih named.2 fun other hm => only other (by simp [hm])
      rw [occurrences_cons, ← later, List.filter_cons, named.1]
      by_cases he : first = tx
      · simp [he]
      · have other : first.id ≠ tx.id := fun same => he (only first (by simp) same)
        simp [he, other]

end Occurrences

namespace Vm

/-- Two neighbours without a common key may change places: neither sees what the other leaves
behind, and those after them see what both leave behind, which is the same. -/
theorem effects_swap {first second : Transaction} (apart : first.Apart second) (below : Lookup)
    (rest : List Transaction) :
    ∃ later,
      effects below (first :: second :: rest) = effect below first :: effect below second :: later ∧
      effects below (second :: first :: rest) =
        effect below second :: effect below first :: later := by
  have after : effect ((effect below first).lasting.onto below) second = effect below second :=
    effect_of_apart apart
  have before : effect ((effect below second).lasting.onto below) first = effect below first :=
    effect_of_apart apart.symm
  have left : (effect below first).lasting.extend (effect below second).lasting =
      (effect below second).lasting.extend (effect below first).lasting := lasting_comm apart
  refine ⟨effects (((effect below first).lasting.extend (effect below second).lasting).onto below)
    rest, ?_, ?_⟩
  · simp only [effects, after, Overlay.onto_onto]
  · simp only [effects, before, Overlay.onto_onto, left]

/-- However a batch is reordered, every occurrence of a transaction keeps its effect, and the batch
leaves the same behind. -/
theorem effects_shuffle {transactions others : List Transaction}
    (h : Shuffle Transaction.Apart transactions others) (below : Lookup) :
    (∀ tx, occurrences tx transactions (effects below transactions) =
      occurrences tx others (effects below others)) ∧
    Overlay.ofEffects (effects below transactions) = Overlay.ofEffects (effects below others) := by
  induction h generalizing below with
  | refl items => exact ⟨fun _ => rfl, rfl⟩
  | cons item _ ih =>
    obtain ⟨same, pending⟩ := ih ((effect below item).lasting.onto below)
    constructor
    · intro tx
      simp only [effects, occurrences_cons, same tx]
    · simp only [effects, Overlay.ofEffects_cons, pending]
  | @swap first second rest apart =>
    obtain ⟨later, ran, swapped⟩ := effects_swap apart below rest
    have left : (effect below first).lasting.extend (effect below second).lasting =
        (effect below second).lasting.extend (effect below first).lasting := lasting_comm apart
    rw [ran, swapped]
    constructor
    · intro tx
      simp only [occurrences_cons]
      by_cases hf : first = tx
      · by_cases hs : second = tx
        · simp [hf, hs]
        · simp [hf, hs]
      · simp [hf]
    · simp only [Overlay.ofEffects_cons, ← Overlay.extend_assoc, left]
  | trans _ _ ih ih' =>
    obtain ⟨same, pending⟩ := ih below
    obtain ⟨same', pending'⟩ := ih' below
    exact ⟨fun tx => (same tx).trans (same' tx), pending.trans pending'⟩

/-- The items of a reordered batch, whatever tells them apart, keep their effects. -/
theorem effects_zip_perm {ι : Type} (call : ι → Transaction) {items others : List ι}
    (h : Shuffle (fun a b => (call a).Apart (call b)) items others) (below : Lookup) :
    (items.zip (effects below (items.map call))).Perm
      (others.zip (effects below (others.map call))) := by
  induction h generalizing below with
  | refl items => exact .refl _
  | cons item _ ih => exact .cons (item, effect below (call item)) (ih _)
  | @swap first second rest apart =>
    obtain ⟨later, ran, swapped⟩ := effects_swap apart below (rest.map call)
    simp only [List.map_cons, ran, swapped]
    exact .swap _ _ _
  | trans _ _ ih ih' => exact (ih below).trans (ih' below)

end Vm
end GroupedLedger
