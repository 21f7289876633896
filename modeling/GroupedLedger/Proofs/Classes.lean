import Mathlib.Data.List.Nodup
import Mathlib.Data.List.Pairwise
import Mathlib.Data.List.Perm.Basic

namespace GroupedLedger.Grouping

variable {α β γ : Type}

/-- The items in classes of equal label, each class in the items' order and the classes in the
order of their first items. -/
def gather [BEq β] (label : α → β) (items : List α) : List (List α) :=
  (items.map label).eraseDups.map fun shared => items.filter fun item => label item == shared

variable [BEq β] {label : α → β} {items : List α}

theorem gather_map (label : α → β) (name : γ → α) (items : List γ) :
    gather label (items.map name) =
      (gather (fun item => label (name item)) items).map (List.map name) := by
  simp only [gather, List.map_map, List.filter_map]
  rfl

theorem mem_of_mem_gather {group : List α} (hg : group ∈ gather label items) {item : α}
    (hi : item ∈ group) : item ∈ items := by
  rw [gather, List.mem_map] at hg
  obtain ⟨shared, _, rfl⟩ := hg
  exact (List.mem_filter.mp hi).1

variable [LawfulBEq β]

theorem nodup_eraseDups (labels : List β) : labels.eraseDups.Nodup := by
  induction hl : labels.length using Nat.strongRecOn generalizing labels with
  | ind length ih =>
    cases labels with
    | nil => exact .nil
    | cons first rest =>
      rw [List.eraseDups_cons, List.nodup_cons]
      constructor
      · intro hm
        have := (List.mem_filter.mp (List.mem_eraseDups.mp hm)).2
        simp at this
      · refine ih _ ?_ _ rfl
        rw [← hl, List.length_cons]
        exact Nat.lt_succ_of_le (List.length_filter_le _ _)

theorem gather_ne_nil : ∀ group ∈ gather label items, group ≠ [] := by
  intro group hm empty
  rw [gather, List.mem_map] at hm
  obtain ⟨shared, hs, rfl⟩ := hm
  obtain ⟨item, hi, rfl⟩ := List.mem_map.mp (List.mem_eraseDups.mp hs)
  have := List.filter_eq_nil_iff.mp empty item hi
  simp at this

theorem gather_heads (label : α → β) (items : List α) :
    ((gather label items).map fun group => group.head?.map label) =
      (items.map label).eraseDups.map some := by
  rw [gather, List.map_map]
  apply List.map_congr_left
  intro shared mem
  obtain ⟨item, listed, labelled⟩ := List.mem_map.mp (List.mem_eraseDups.mp mem)
  have chosen : item ∈ items.filter fun item => label item == shared :=
    List.mem_filter.mpr ⟨listed, beq_iff_eq.mpr labelled⟩
  obtain ⟨first, rest, group⟩ := List.exists_cons_of_ne_nil (List.ne_nil_of_mem chosen)
  have leads : first ∈ items.filter fun item => label item == shared := group ▸ List.mem_cons_self
  simp only [Function.comp_apply, group, List.head?_cons, Option.map_some]
  rw [eq_of_beq (List.mem_filter.mp leads).2]

theorem gather_pairwise : (gather label items).Pairwise fun earlier later =>
    ∀ a ∈ earlier, ∀ b ∈ later, label a ≠ label b := by
  rw [gather, List.pairwise_map]
  refine (nodup_eraseDups _).imp ?_
  intro shared other different a ha b hb same
  have hs := eq_of_beq (List.mem_filter.mp ha).2
  have ho := eq_of_beq (List.mem_filter.mp hb).2
  exact different (hs.symm.trans (same.trans ho))

theorem gather_cons (label : α → β) (item : α) (items : List α) :
    gather label (item :: items) =
      (item :: items.filter fun other => label other == label item) ::
        gather label (items.filter fun other => !(label other == label item)) := by
  have own : (item :: items).filter (fun other => label other == label item) =
      item :: items.filter fun other => label other == label item :=
    List.filter_cons_of_pos (beq_self_eq_true _)
  rw [gather, gather, List.map_cons, List.eraseDups_cons, List.map_cons, own]
  congr 1
  rw [List.filter_map]
  apply List.map_congr_left
  intro shared hs
  obtain ⟨other, ho, rfl⟩ := List.mem_map.mp (List.mem_eraseDups.mp hs)
  have different : label other ≠ label item := by
    simpa using (List.mem_filter.mp ho).2
  rw [List.filter_cons_of_neg (by simpa using different.symm), List.filter_filter]
  apply List.filter_congr
  intro another _
  by_cases same : label another = label other
  · simp [same, different]
  · simp [same]

omit [LawfulBEq β] in
/-- Induction on what is left of a list once the first class is taken away. -/
theorem gather_induction (label : α → β) {motive : List α → Prop} (nil : motive [])
    (cons : ∀ item items,
      motive (items.filter fun other => !(label other == label item)) → motive (item :: items))
    (items : List α) : motive items := by
  induction hl : items.length using Nat.strongRecOn generalizing items with
  | ind length ih =>
    cases items with
    | nil => exact nil
    | cons item items =>
      refine cons item items (ih _ ?_ _ rfl)
      rw [← hl, List.length_cons]
      exact Nat.lt_succ_of_le (List.length_filter_le _ _)

theorem gather_perm (label : α → β) (items : List α) : (gather label items).flatten.Perm items := by
  induction items using gather_induction label with
  | nil => exact .nil
  | cons item items ih =>
    rw [gather_cons, List.flatten_cons, List.cons_append]
    exact ((ih.append_left _).trans (List.filter_append_perm _ items)).cons item

/-- The first items of the classes come in the items' order. -/
theorem gather_firsts (label : α → β) (items : List α) :
    ((gather label items).filterMap List.head?).Sublist items := by
  induction items using gather_induction label with
  | nil => exact .slnil
  | cons item items ih =>
    rw [gather_cons, List.filterMap_cons_some List.head?_cons]
    exact (ih.trans List.filter_sublist).cons_cons item

omit [LawfulBEq β] in
theorem gather_sublist : ∀ group ∈ gather label items, group.Sublist items := by
  intro group hm
  rw [gather, List.mem_map] at hm
  obtain ⟨shared, _, rfl⟩ := hm
  exact List.filter_sublist

theorem mem_gather_iff {a b : α} (ha : a ∈ items) (hb : b ∈ items) :
    (∃ group ∈ gather label items, a ∈ group ∧ b ∈ group) ↔ label a = label b := by
  rw [gather]
  constructor
  · rintro ⟨group, mem, inA, inB⟩
    obtain ⟨shared, _, rfl⟩ := List.mem_map.mp mem
    have sameA := eq_of_beq (List.mem_filter.mp inA).2
    have sameB := eq_of_beq (List.mem_filter.mp inB).2
    exact sameA.trans sameB.symm
  · intro same
    have known : label a ∈ (items.map label).eraseDups :=
      List.mem_eraseDups.mpr (List.mem_map_of_mem ha)
    exact ⟨_, List.mem_map_of_mem known, List.mem_filter.mpr ⟨ha, beq_self_eq_true _⟩,
      List.mem_filter.mpr ⟨hb, beq_iff_eq.mpr same.symm⟩⟩

/-- Labels that are equal for the same items sort the items alike. -/
theorem gather_congr [BEq γ] [LawfulBEq γ] {label : α → β} {other : α → γ} {items : List α}
    (same : ∀ a ∈ items, ∀ b ∈ items, label a = label b ↔ other a = other b) :
    gather label items = gather other items := by
  induction items using gather_induction label with
  | nil => rfl
  | cons item items ih =>
    have alike : ∀ another ∈ items, (label another == label item) = (other another == other item) := by
      intro another mem
      rw [Bool.eq_iff_iff, beq_iff_eq, beq_iff_eq]
      exact same another (List.mem_cons_of_mem _ mem) item List.mem_cons_self
    have rest := List.filter_congr fun another mem => congrArg (!·) (alike another mem)
    rw [gather_cons, gather_cons, List.filter_congr alike, ih, rest]
    intro a ha b hb
    exact same a (List.mem_cons_of_mem _ (List.mem_filter.mp ha).1) b
      (List.mem_cons_of_mem _ (List.mem_filter.mp hb).1)

/-- The classes of a relation among the items of a list: every item is in one of them, with exactly
the items it is related to; no class is empty; each lists its items in the order of the list; and
the classes come in the order of their first items. -/
structure Classes (same : α → α → Prop) (items : List α) (classes : List (List α)) : Prop where
  once : classes.flatten.Perm items
  filled : ∀ group ∈ classes, group ≠ []
  ordered : ∀ group ∈ classes, group.Sublist items
  firsts : (classes.filterMap List.head?).Sublist items
  exact : ∀ a ∈ items, ∀ b ∈ items, (∃ group ∈ classes, a ∈ group ∧ b ∈ group) ↔ same a b

theorem gather_classes (label : α → β) (items : List α) :
    Classes (fun a b => label a = label b) items (gather label items) where
  once := gather_perm label items
  filled := gather_ne_nil
  ordered := gather_sublist
  firsts := gather_firsts label items
  exact _ ha _ hb := mem_gather_iff ha hb

section Classes

variable {same other : α → α → Prop} {items : List α} {classes coarser : List (List α)}

theorem Classes.mem_items (h : Classes same items classes) {group : List α} (mem : group ∈ classes)
    {item : α} (inside : item ∈ group) : item ∈ items :=
  (h.ordered group mem).subset inside

theorem Classes.exists_mem (h : Classes same items classes) {item : α} (mem : item ∈ items) :
    ∃ group ∈ classes, item ∈ group :=
  List.mem_flatten.mp (h.once.mem_iff.mpr mem)

theorem Classes.eq_of_mem (h : Classes same items classes) (nodup : items.Nodup)
    {one two : List α} (ho : one ∈ classes) (ht : two ∈ classes) {item : α} (inOne : item ∈ one)
    (inTwo : item ∈ two) : one = two := by
  have disjoint := (List.nodup_flatten.mp (h.once.nodup_iff.mpr nodup)).2
  by_contra different
  have symm : Std.Symm (List.Disjoint (α := α)) :=
    ⟨fun _ _ apart _ inTwo inOne => apart inOne inTwo⟩
  exact disjoint.forall ho ht different inOne inTwo

/-- Every class of a finer relation lies in one class of a coarser one. -/
theorem Classes.refines (fine : Classes same items classes) (coarse : Classes other items coarser)
    (nodup : items.Nodup) (implies : ∀ a ∈ items, ∀ b ∈ items, same a b → other a b) :
    ∀ group ∈ classes, ∃! wider, wider ∈ coarser ∧ group ⊆ wider := by
  intro group mem
  obtain ⟨first, inside⟩ := List.exists_mem_of_ne_nil group (fine.filled group mem)
  have listed := fine.mem_items mem inside
  obtain ⟨wider, hw, inWider⟩ := coarse.exists_mem listed
  refine ⟨wider, ⟨hw, ?_⟩, ?_⟩
  · intro item hi
    have listed' := fine.mem_items mem hi
    have related := (fine.exact first listed item listed').mp ⟨group, mem, inside, hi⟩
    obtain ⟨shared, hs, hasFirst, hasItem⟩ :=
      (coarse.exact first listed item listed').mpr (implies first listed item listed' related)
    rwa [coarse.eq_of_mem nodup hw hs inWider hasFirst]
  · rintro another ⟨ha, covers⟩
    exact coarse.eq_of_mem nodup ha hw (covers inside) inWider

end Classes

/-- Classes stay classes when the items are renamed, if the relation is renamed with them. -/
theorem Classes.map {same : α → α → Prop} {other : γ → γ → Prop} {items : List α}
    {classes : List (List α)} (h : Classes same items classes) (name : α → γ)
    (alike : ∀ a ∈ items, ∀ b ∈ items, same a b ↔ other (name a) (name b)) :
    Classes other (items.map name) (classes.map (List.map name)) where
  once := by
    rw [← List.map_flatten]
    exact h.once.map name
  filled := by
    intro group mem empty
    obtain ⟨members, hm, rfl⟩ := List.mem_map.mp mem
    exact h.filled members hm (List.map_eq_nil_iff.mp empty)
  ordered := by
    intro group mem
    obtain ⟨members, hm, rfl⟩ := List.mem_map.mp mem
    exact (h.ordered members hm).map name
  firsts := by
    have firsts := h.firsts.map name
    rw [List.map_filterMap] at firsts
    simpa [List.filterMap_map, Function.comp_def] using firsts
  exact := by
    intro a ha b hb
    obtain ⟨one, ho, rfl⟩ := List.mem_map.mp ha
    obtain ⟨two, ht, rfl⟩ := List.mem_map.mp hb
    constructor
    · rintro ⟨group, mem, inA, inB⟩
      obtain ⟨members, hm, rfl⟩ := List.mem_map.mp mem
      obtain ⟨a, ha, named⟩ := List.mem_map.mp inA
      obtain ⟨b, hb, named'⟩ := List.mem_map.mp inB
      have inside := (h.ordered members hm).subset
      rw [← named, ← named', ← alike a (inside ha) b (inside hb)]
      exact (h.exact a (inside ha) b (inside hb)).mp ⟨members, hm, ha, hb⟩
    · intro related
      obtain ⟨members, hm, inA, inB⟩ := (h.exact one ho two ht).mpr ((alike one ho two ht).mpr related)
      exact ⟨members.map name, List.mem_map_of_mem hm, List.mem_map_of_mem inA,
        List.mem_map_of_mem inB⟩

end GroupedLedger.Grouping
