import GroupedLedger.Overlay
import GroupedLedger.Proofs.Effects

namespace GroupedLedger

section Folds

variable {σ α β γ : Type} {read : σ → Key → γ}

/-- Items that are put under their keys one after the other leave under a key what those for it say,
if there are any and they agree. -/
theorem read_foldl_put {put : σ → α → σ} {keyOf : α → Key} {said : α → γ}
    (law : ∀ state item key,
      read (put state item) key = if keyOf item = key then said item else read state key)
    {items : List α} {key : Key} {value : γ}
    (agree : ∀ item ∈ items, keyOf item = key → said item = value) (state : σ) :
    read (items.foldl put state) key = if key ∈ items.map keyOf then value else read state key := by
  induction items generalizing state with
  | nil => simp
  | cons item items ih =>
    rw [List.foldl_cons, ih fun other hm => agree other (by simp [hm]), law]
    by_cases later : key ∈ items.map keyOf
    · simp [later]
    · by_cases here : keyOf item = key
      · simp [later, here, agree item (by simp) here]
      · simp [later, here, Ne.symm here]

theorem KeyMap.read_foldl {put : σ → Key → β → σ} {said : β → γ}
    (law : ∀ state entry item key,
      read (put state entry item) key = if entry = key then said item else read state key)
    (map : KeyMap β) (state : σ) (key : Key) :
    read (map.foldl put state) key = map[key]?.elim (read state key) said := by
  have agree : ∀ entry ∈ map.toList, entry.1 = key → map[key]? = some entry.2 := by
    rintro ⟨_, item⟩ mem rfl
    exact Std.ExtTreeMap.mem_toList_iff_getElem?_eq_some.mp mem
  have left := @read_foldl_put σ (Key × β) γ read (fun state entry => put state entry.1 entry.2)
    Prod.fst (fun entry => said entry.2) (fun state entry => law state entry.1 entry.2) map.toList key
    (map[key]?.elim (read state key) said)
    (fun entry mem here => by rw [agree entry mem here]; rfl) state
  rw [Std.ExtTreeMap.foldl_eq_foldl_toList, left, Std.ExtTreeMap.map_fst_toList_eq_keys]
  split
  · rfl
  · rename_i absent
    rw [Std.ExtTreeMap.mem_keys] at absent
    rw [Std.ExtTreeMap.getElem?_eq_none absent]
    rfl

theorem KeySet.read_foldl {put : σ → Key → σ} {said : γ}
    (law : ∀ state entry key,
      read (put state entry) key = if entry = key then said else read state key)
    (set : KeySet) (state : σ) (key : Key) :
    read (set.foldl put state) key = if key ∈ set then said else read state key := by
  rw [Std.ExtTreeSet.foldl_eq_foldl_toList, read_foldl_put law (fun _ _ _ => rfl) state]
  simp

end Folds

/-- What is found under each key of a state. -/
abbrev Lookup := Key → Option Value

namespace Overlay

theorem ext_read {a b : Overlay} (same : ∀ key, a.read key = b.read key) : a = b := by
  cases a
  cases b
  exact congrArg Overlay.mk (Std.ExtTreeMap.ext_getElem? same)

@[simp] theorem read_empty (key : Key) : empty.read key = none := by
  simp [read, empty]

@[simp] theorem read_extend (lower upper : Overlay) (key : Key) :
    (lower.extend upper).read key = (upper.read key).or (lower.read key) :=
  Std.ExtTreeMap.getElem?_union

@[simp] theorem read_set (overlay : Overlay) (changed : Key) (value : Value) (key : Key) :
    (overlay.set changed value).read key =
      if changed = key then some (.changed value) else overlay.read key := by
  simp [read, set, Std.ExtTreeMap.getElem?_insert]

@[simp] theorem read_delete (overlay : Overlay) (deleted key : Key) :
    (overlay.delete deleted).read key =
      if deleted = key then some .deleted else overlay.read key := by
  simp [read, delete, Std.ExtTreeMap.getElem?_insert]

@[simp] theorem empty_extend (overlay : Overlay) : empty.extend overlay = overlay :=
  ext_read fun key => by simp

@[simp] theorem extend_empty (overlay : Overlay) : overlay.extend empty = overlay :=
  ext_read fun key => by simp

theorem extend_assoc (a b c : Overlay) : (a.extend b).extend c = a.extend (b.extend c) :=
  ext_read fun key => by simp [Option.or_assoc]

def Disjoint (a b : Overlay) : Prop := ∀ key, a.read key = none ∨ b.read key = none

theorem Disjoint.symm {a b : Overlay} (disjoint : a.Disjoint b) : b.Disjoint a :=
  fun key => (disjoint key).symm

/-- It does not matter which of two overlays lies over the other if they share no key. -/
theorem Disjoint.extend_comm {a b : Overlay} (disjoint : a.Disjoint b) :
    a.extend b = b.extend a := by
  apply ext_read
  intro key
  rw [read_extend, read_extend]
  rcases disjoint key with none | none
  · rw [none, Option.or_none, Option.none_or]
  · rw [none, Option.or_none, Option.none_or]

/-- What is found below an overlay, as seen through it. -/
def onto (overlay : Overlay) (below : Lookup) : Lookup :=
  (StateView.through ⟨below, fun _ => false⟩ overlay.read).get?

theorem onto_eq (overlay : Overlay) (below : Lookup) (key : Key) :
    overlay.onto below key = match overlay.read key with
      | some (.changed value) => some value
      | some .deleted => none
      | none => below key := rfl

theorem get?_through (base : StateView) (overlay : Overlay) :
    (base.through overlay.read).get? = overlay.onto base.get? := rfl

@[simp] theorem empty_onto (below : Lookup) : empty.onto below = below := by
  funext key
  simp [onto_eq]

theorem onto_onto (lower upper : Overlay) (below : Lookup) :
    upper.onto (lower.onto below) = (lower.extend upper).onto below := by
  funext key
  simp only [onto_eq, read_extend]
  cases upper.read key with
  | none => rfl
  | some pending => cases pending <;> rfl

theorem onto_of_unread {overlay : Overlay} {key : Key} (unread : overlay.read key = none)
    (below : Lookup) : overlay.onto below key = below key := by
  rw [onto_eq, unread]

theorem onto_congr (overlay : Overlay) {below other : Lookup} {key : Key}
    (same : below key = other key) : overlay.onto below key = overlay.onto other key := by
  simp only [onto_eq, same]

end Overlay

namespace Effect

/-- A key that is both written and deleted counts as deleted. -/
theorem read_overlay (effect : Effect) (key : Key) :
    effect.overlay.read key =
      if key ∈ effect.deletes then some .deleted else effect.writes[key]?.map .changed := by
  rw [overlay, KeySet.read_foldl Overlay.read_delete]
  simp [Overlay.read]

theorem read_overlay_eq_none {effect : Effect} {key : Key} :
    effect.overlay.read key = none ↔ key ∉ effect.changedKeys := by
  rw [read_overlay, mem_changedKeys]
  by_cases hd : key ∈ effect.deletes
  · simp [hd]
  · simp [hd]

/-- A transaction sees of itself what it leaves pending. -/
theorem Exclusive.own?_eq {effect : Effect} (h : effect.Exclusive) (key : Key) :
    effect.own? key = effect.overlay.read key := by
  rw [own?, read_overlay]
  by_cases hd : key ∈ effect.deletes
  · have hw : effect.writes[key]? = none := Std.ExtTreeMap.getElem?_eq_none (h key hd)
    simp [hd, hw]
  · cases effect.writes[key]? with
    | none => simp [hd]
    | some value => simp [hd]

theorem overlay_fresh (id : Digest) : (fresh id).overlay = .empty := by
  apply Overlay.ext_read
  intro key
  simp [read_overlay, fresh]

theorem overlay_write (effect : Effect) (written : Key) (value : Value) :
    (effect.write written value).overlay = effect.overlay.set written value := by
  apply Overlay.ext_read
  intro key
  simp only [Overlay.read_set, read_overlay, write, Std.ExtTreeSet.mem_erase,
    Std.ExtTreeMap.getElem?_insert, ne_eq, Std.compare_eq_iff_eq]
  by_cases he : written = key
  · simp [he]
  · simp [he]

theorem overlay_delete (effect : Effect) (deleted : Key) :
    (effect.delete deleted).overlay = effect.overlay.delete deleted := by
  apply Overlay.ext_read
  intro key
  simp only [Overlay.read_delete, read_overlay, delete, Std.ExtTreeSet.mem_insert,
    Std.ExtTreeMap.getElem?_erase, Std.compare_eq_iff_eq]
  by_cases he : deleted = key
  · simp [he]
  · simp [he]

/-- What an effect adds to what is pending. -/
def lasting (effect : Effect) : Overlay :=
  if effect.status = .conflict then .empty else effect.overlay

theorem read_lasting_eq_none {effect : Effect} {key : Key} (unchanged : key ∉ effect.changedKeys) :
    effect.lasting.read key = none := by
  rw [lasting]
  split
  · exact Overlay.read_empty key
  · exact read_overlay_eq_none.mpr unchanged

@[simp] theorem lasting_demote (effect : Effect) : effect.demote.lasting = .empty := if_pos rfl

theorem lasting_failed (id : Digest) (error : String) : (failed id error).lasting = .empty := by
  apply Overlay.ext_read
  intro key
  rw [Overlay.read_empty]
  apply read_lasting_eq_none
  simp [mem_changedKeys, failed, fresh, finish]

end Effect

namespace Overlay

theorem absorb_eq (overlay : Overlay) (effect : Effect) :
    overlay.absorb effect = overlay.extend effect.lasting := by
  simp only [absorb, Effect.lasting]
  split <;> simp

theorem foldl_absorb (overlay : Overlay) (effects : List Effect) :
    effects.foldl absorb overlay = overlay.extend (ofEffects effects) := by
  induction effects generalizing overlay with
  | nil => simp [ofEffects]
  | cons effect effects ih =>
    have hc : ofEffects (effect :: effects) = (empty.absorb effect).extend (ofEffects effects) :=
      ih (empty.absorb effect)
    rw [List.foldl_cons, ih, hc, absorb_eq, absorb_eq, extend_assoc, empty_extend]

@[simp] theorem ofEffects_nil : ofEffects [] = empty := rfl

theorem ofEffects_cons (effect : Effect) (effects : List Effect) :
    ofEffects (effect :: effects) = effect.lasting.extend (ofEffects effects) := by
  rw [ofEffects, List.foldl_cons, foldl_absorb, absorb_eq, empty_extend]

theorem ofEffects_append (first rest : List Effect) :
    ofEffects (first ++ rest) = (ofEffects first).extend (ofEffects rest) := by
  rw [ofEffects, List.foldl_append, foldl_absorb]
  rfl

theorem ofEffects_congr {effects others : List Effect}
    (same : effects.map Effect.lasting = others.map Effect.lasting) :
    ofEffects effects = ofEffects others := by
  induction effects generalizing others with
  | nil =>
    rw [List.map_nil] at same
    rw [List.map_eq_nil_iff.mp same.symm]
  | cons effect effects ih =>
    cases others with
    | nil => simp at same
    | cons other others =>
      rw [List.map_cons, List.map_cons, List.cons.injEq] at same
      rw [ofEffects_cons, ofEffects_cons, same.1, ih same.2]

/-- Effects that add nothing may be left out. -/
theorem ofEffects_filter {keep : Effect → Bool} {effects : List Effect}
    (idle : ∀ effect ∈ effects, keep effect = false → effect.lasting = .empty) :
    ofEffects (effects.filter keep) = ofEffects effects := by
  induction effects with
  | nil => rfl
  | cons effect effects ih =>
    have later := ih fun other hm => idle other (by simp [hm])
    cases kept : keep effect with
    | true => rw [List.filter_cons_of_pos kept, ofEffects_cons, ofEffects_cons, later]
    | false =>
      rw [List.filter_cons_of_neg (by simp [kept]), ofEffects_cons, idle effect (by simp) kept,
        empty_extend, later]

theorem ofEffects_eq_empty {effects : List Effect}
    (idle : ∀ effect ∈ effects, effect.lasting = .empty) : ofEffects effects = empty := by
  induction effects with
  | nil => rfl
  | cons effect effects ih =>
    rw [ofEffects_cons, idle effect (by simp), ih fun other hm => idle other (by simp [hm]),
      extend_empty]

theorem ofEffects_failed {α : Type} (items : List α) (id : α → Digest) (error : α → String) :
    ofEffects (items.map fun item => Effect.failed (id item) (error item)) = empty := by
  apply ofEffects_eq_empty
  intro effect hm
  obtain ⟨item, _, rfl⟩ := List.mem_map.mp hm
  exact Effect.lasting_failed _ _

theorem merge_append (prior : Option Overlay) (first rest : List Effect) :
    merge prior (first ++ rest) = (merge prior first).extend (ofEffects rest) := by
  rw [merge, merge, ofEffects_append, extend_assoc]

theorem merge_merge (prior : Option Overlay) (first rest : List Effect) :
    merge (some (merge prior first)) rest = merge prior (first ++ rest) :=
  (merge_append prior first rest).symm

theorem merge_onto (overlay : Overlay) (effects : List Effect) (below : Lookup) :
    (merge (some overlay) effects).onto below = (ofEffects effects).onto (overlay.onto below) :=
  (onto_onto overlay (ofEffects effects) below).symm

/-- Blocks of effects that leave no key pending in common may be folded in in any order. -/
theorem ofEffects_flatten_perm {blocks order : List (List Effect)} (perm : blocks.Perm order)
    (disjoint : blocks.Pairwise fun a b => (ofEffects a).Disjoint (ofEffects b)) :
    ofEffects blocks.flatten = ofEffects order.flatten := by
  induction perm with
  | nil => rfl
  | cons block _ ih =>
    rw [List.flatten_cons, List.flatten_cons, ofEffects_append, ofEffects_append,
      ih (List.pairwise_cons.mp disjoint).2]
  | swap first second rest =>
    have apart := (List.pairwise_cons.mp disjoint).1 first (by simp)
    simp only [List.flatten_cons, ofEffects_append, ← extend_assoc, apart.extend_comm]
  | trans earlier _ ih ih' =>
    exact (ih disjoint).trans (ih' ((earlier.pairwise_iff Disjoint.symm).mp disjoint))

theorem read_ofEffects_eq_none {effects : List Effect} {key : Key}
    (unchanged : ∀ effect ∈ effects, key ∉ effect.changedKeys) :
    (ofEffects effects).read key = none := by
  induction effects with
  | nil => exact read_empty key
  | cons effect effects ih =>
    rw [ofEffects_cons, read_extend, ih fun other hm => unchanged other (by simp [hm]),
      Effect.read_lasting_eq_none (unchanged effect (by simp))]
    rfl

end Overlay

def Pending.value? : Pending → Option Value
  | .changed value => some value
  | .deleted => none

namespace Snapshot

theorem get?_commit (snapshot : Snapshot) (committed key : Key) (pending : Pending) :
    (snapshot.commit committed pending).get? key =
      if committed = key then pending.value? else snapshot.get? key := by
  cases pending with
  | changed value => simp [commit, get?, Pending.value?, Std.ExtTreeMap.getElem?_insert]
  | deleted => simp [commit, get?, Pending.value?, Std.ExtTreeMap.getElem?_erase]

/-- Committing what is pending leaves what was found through it. -/
theorem get?_apply (snapshot : Snapshot) (overlay : Overlay) :
    (snapshot.apply overlay).get? = overlay.onto snapshot.get? := by
  funext key
  rw [apply, KeyMap.read_foldl fun state entry pending key => get?_commit state entry key pending]
  change (overlay.read key).elim _ _ = _
  rw [Overlay.onto_eq]
  cases overlay.read key with
  | none => rfl
  | some pending => cases pending <;> rfl

theorem ext_get? {a b : Snapshot} (same : a.get? = b.get?) : a = b := by
  cases a
  cases b
  exact congrArg Snapshot.mk (Std.ExtTreeMap.ext_getElem? (congrFun same))

theorem apply_apply (snapshot : Snapshot) (lower upper : Overlay) :
    (snapshot.apply lower).apply upper = snapshot.apply (lower.extend upper) := by
  apply ext_get?
  rw [get?_apply, get?_apply, get?_apply, Overlay.onto_onto]

theorem apply_empty (snapshot : Snapshot) : snapshot.apply .empty = snapshot := by
  apply ext_get?
  rw [get?_apply, Overlay.empty_onto]

end Snapshot
end GroupedLedger
