import GroupedLedger.Proofs.Overlays

namespace GroupedLedger

/-- The pending values by key, and the keys pending for deletion. Nothing keeps a key out of both
but the care of whoever changes them. -/
@[ext]
structure Columns where
  changes : KeyMap Value
  deletes : KeySet

namespace Columns

def empty : Columns := ⟨∅, ∅⟩

def set (columns : Columns) (key : Key) (value : Value) : Columns :=
  ⟨columns.changes.insert key value, columns.deletes.erase key⟩

def delete (columns : Columns) (key : Key) : Columns :=
  ⟨columns.changes.erase key, columns.deletes.insert key⟩

/-- What the columns hold for a key. The changes are looked at first. -/
def read (columns : Columns) (key : Key) : Option Pending :=
  match columns.changes[key]? with
  | some value => some (.changed value)
  | none => if columns.deletes.contains key then some .deleted else none

def knows (columns : Columns) (key : Key) : Bool :=
  columns.changes.contains key || columns.deletes.contains key

/-- Folds in one effect, unless its group was rejected: first what it wrote, then what it deleted.
-/
def absorb (columns : Columns) (effect : Effect) : Columns :=
  if effect.status = .conflict then columns
  else effect.deletes.foldl delete (effect.writes.foldl set columns)

def ofEffects (effects : List Effect) : Columns := effects.foldl absorb empty

/-- Carries over from `prior` the entries for the keys that neither column has. -/
def carry (merged prior : Columns) : Columns :=
  ⟨merged.changes ∪ prior.changes.filter fun key _ => !merged.knows key,
    merged.deletes ∪ prior.deletes.filter fun key => !merged.knows key⟩

def merge (prior : Option Columns) (effects : List Effect) : Columns :=
  match prior with
  | none => ofEffects effects
  | some prior => (ofEffects effects).carry prior

def Disjoint (columns : Columns) : Prop := ∀ key ∈ columns.deletes, key ∉ columns.changes

/-- An effect that changes what the columns say. It is exclusive exactly if they are disjoint. -/
def effect (columns : Columns) : Effect :=
  { Effect.fresh (.filled 32 0) with writes := columns.changes, deletes := columns.deletes }

@[simp] theorem read_empty (key : Key) : empty.read key = none := by
  simp [read, empty]

theorem read_set (columns : Columns) (changed : Key) (value : Value) (key : Key) :
    (columns.set changed value).read key =
      if changed = key then some (.changed value) else columns.read key := by
  simp only [read, set, Std.ExtTreeMap.getElem?_insert, Std.ExtTreeSet.contains_iff_mem,
    Std.ExtTreeSet.mem_erase, ne_eq, Std.compare_eq_iff_eq]
  by_cases he : changed = key
  · simp [he]
  · simp [he]

theorem read_delete (columns : Columns) (deleted key : Key) :
    (columns.delete deleted).read key =
      if deleted = key then some .deleted else columns.read key := by
  simp only [read, delete, Std.ExtTreeMap.getElem?_erase, Std.ExtTreeSet.contains_iff_mem,
    Std.ExtTreeSet.mem_insert, Std.compare_eq_iff_eq]
  by_cases he : deleted = key
  · simp [he]
  · simp [he]

theorem read_absorb (columns : Columns) (effect : Effect) (key : Key) :
    (columns.absorb effect).read key = (effect.lasting.read key).or (columns.read key) := by
  rw [absorb, Effect.lasting]
  split
  · rw [Overlay.read_empty, Option.none_or]
  · rw [KeySet.read_foldl read_delete, KeyMap.read_foldl read_set, Effect.read_overlay]
    split
    · rfl
    · cases effect.writes[key]? <;> rfl

theorem read_ofEffects (effects : List Effect) (key : Key) :
    (ofEffects effects).read key = (Overlay.ofEffects effects).read key := by
  have folded : ∀ (columns : Columns) (overlay : Overlay), columns.read key = overlay.read key →
      (effects.foldl absorb columns).read key = (effects.foldl Overlay.absorb overlay).read key := by
    induction effects with
    | nil => exact fun _ _ same => same
    | cons effect effects ih =>
      intro columns overlay same
      apply ih
      rw [read_absorb, Overlay.absorb_eq, Overlay.read_extend, same]
  exact folded empty .empty (by rw [read_empty, Overlay.read_empty])

theorem knows_iff {columns : Columns} {key : Key} :
    columns.knows key = true ↔ key ∈ columns.changes ∨ key ∈ columns.deletes := by
  simp [knows]

theorem knows_eq_isSome (columns : Columns) (key : Key) :
    columns.knows key = (columns.read key).isSome := by
  rw [knows, read, Std.ExtTreeMap.contains_eq_isSome_getElem?]
  cases columns.changes[key]? with
  | some value => rfl
  | none => cases columns.deletes.contains key <;> rfl

/-- A key that neither column has is in both columns as it was before, and every other key is in
neither as it was before. -/
theorem carry_eq (merged prior : Columns) (key : Key) :
    let known := if merged.knows key then merged else prior
    (merged.carry prior).changes[key]? = known.changes[key]? ∧
      (merged.carry prior).deletes.contains key = known.deletes.contains key := by
  have passes : (prior.deletes.filter fun key => !merged.knows key).contains key =
      (prior.deletes.contains key && !merged.knows key) := by
    rw [Bool.eq_iff_iff]
    simp [Std.ExtTreeSet.get_eq]
  simp only [carry, Std.ExtTreeMap.getElem?_union, Std.ExtTreeMap.getElem?_filter',
    Std.ExtTreeSet.contains_union, passes]
  cases known : merged.knows key with
  | true => simp
  | false =>
    rw [knows, Bool.or_eq_false_iff, Std.ExtTreeMap.contains_eq_isSome_getElem?,
      Option.isSome_eq_false_iff, Option.isNone_iff_eq_none] at known
    simp only [known.1, known.2, Option.or_none, Bool.false_or, Bool.not_false, Bool.and_true,
      Bool.false_eq_true, if_false, and_true]
    cases prior.changes[key]? <;> rfl

/-- What was pending before is carried over only for keys that the effects leave alone. -/
theorem read_carry (merged prior : Columns) (key : Key) :
    (merged.carry prior).read key = (merged.read key).or (prior.read key) := by
  obtain ⟨changes, deletes⟩ := carry_eq merged prior key
  rw [read, changes, deletes]
  rw [knows_eq_isSome]
  cases found : merged.read key with
  | none => rfl
  | some pending => exact found

theorem disjoint_empty : empty.Disjoint := by
  intro key deleted
  simp [empty] at deleted

theorem Disjoint.set {columns : Columns} (h : columns.Disjoint) (key : Key) (value : Value) :
    (columns.set key value).Disjoint :=
  @Effect.Exclusive.write columns.effect h key value

theorem Disjoint.delete {columns : Columns} (h : columns.Disjoint) (key : Key) :
    (columns.delete key).Disjoint :=
  @Effect.Exclusive.delete columns.effect h key

theorem Disjoint.absorb {columns : Columns} (h : columns.Disjoint) (effect : Effect) :
    (columns.absorb effect).Disjoint := by
  rw [Columns.absorb]
  split
  · exact h
  · rw [Std.ExtTreeSet.foldl_eq_foldl_toList, Std.ExtTreeMap.foldl_eq_foldl_toList]
    refine List.foldlRecOn _ _ (List.foldlRecOn _ _ h ?_) ?_
    · exact fun _ disjoint entry _ => disjoint.set entry.1 entry.2
    · exact fun _ disjoint key _ => disjoint.delete key

theorem disjoint_ofEffects (effects : List Effect) : (ofEffects effects).Disjoint :=
  List.foldlRecOn _ _ disjoint_empty fun _ disjoint effect _ => disjoint.absorb effect

/-- Whatever is carried over was known before, and in one column only. -/
theorem Disjoint.carry {merged prior : Columns} (h : merged.Disjoint) (earlier : prior.Disjoint) :
    (merged.carry prior).Disjoint := by
  intro key deleted changed
  obtain ⟨changes, deletes⟩ := carry_eq merged prior key
  rw [← Std.ExtTreeSet.contains_iff_mem, deletes, Std.ExtTreeSet.contains_iff_mem] at deleted
  rw [Std.ExtTreeMap.mem_iff_isSome_getElem?, changes, ← Std.ExtTreeMap.mem_iff_isSome_getElem?]
    at changed
  revert deleted changed
  split
  · exact h key
  · exact earlier key

theorem getElem?_changes (columns : Columns) (key : Key) :
    columns.changes[key]? = (columns.read key).bind Pending.value? := by
  rw [read]
  cases columns.changes[key]? with
  | some value => rfl
  | none => cases columns.deletes.contains key <;> rfl

theorem Disjoint.mem_deletes {columns : Columns} (h : columns.Disjoint) {key : Key} :
    key ∈ columns.deletes ↔ columns.read key = some .deleted := by
  rw [read, ← Std.ExtTreeSet.contains_iff_mem]
  cases deleted : columns.deletes.contains key with
  | true =>
    have unchanged := Std.ExtTreeMap.getElem?_eq_none
      (h key (Std.ExtTreeSet.contains_iff_mem.mp deleted))
    simp [unchanged]
  | false => cases columns.changes[key]? <;> simp

theorem Disjoint.ext_read {a b : Columns} (ha : a.Disjoint) (hb : b.Disjoint)
    (same : ∀ key, a.read key = b.read key) : a = b := by
  apply Columns.ext
  · apply Std.ExtTreeMap.ext_getElem?
    intro key
    rw [getElem?_changes, getElem?_changes, same]
  · apply Std.ExtTreeSet.ext_mem
    intro key
    rw [ha.mem_deletes, hb.mem_deletes, same]

end Columns

namespace Overlay

/-- The two columns that an overlay's pending values and its keys pending for deletion make up. -/
def columns (overlay : Overlay) : Columns :=
  ⟨overlay.entries.filterMap fun _ => Pending.value?, .ofList overlay.deletes⟩

theorem mem_deletes {overlay : Overlay} {key : Key} :
    key ∈ overlay.deletes ↔ overlay.read key = some .deleted := by
  rw [deletes, List.mem_filterMap, read, ← Std.ExtTreeMap.mem_toList_iff_getElem?_eq_some]
  constructor
  · rintro ⟨⟨other, pending⟩, mem, found⟩
    cases pending with
    | changed held => cases found
    | deleted =>
      cases found
      exact mem
  · exact fun mem => ⟨_, mem, rfl⟩

theorem getElem?_columns_changes (overlay : Overlay) (key : Key) :
    overlay.columns.changes[key]? = (overlay.read key).bind Pending.value? :=
  Std.ExtTreeMap.getElem?_filterMap'

theorem mem_columns_deletes {overlay : Overlay} {key : Key} :
    key ∈ overlay.columns.deletes ↔ overlay.read key = some .deleted := by
  rw [columns, Std.ExtTreeSet.mem_ofList, List.contains_iff_mem, mem_deletes]

@[simp] theorem read_columns (overlay : Overlay) (key : Key) :
    overlay.columns.read key = overlay.read key := by
  have deletes := @mem_columns_deletes overlay key
  rw [Columns.read, getElem?_columns_changes]
  rw [← Std.ExtTreeSet.contains_iff_mem] at deletes
  cases found : overlay.read key with
  | none => simp_all
  | some pending => cases pending <;> simp_all [Pending.value?]

theorem disjoint_columns (overlay : Overlay) : overlay.columns.Disjoint := by
  intro key deleted changed
  rw [Std.ExtTreeMap.mem_iff_isSome_getElem?, getElem?_columns_changes,
    mem_columns_deletes.mp deleted] at changed
  cases changed

/-- Every operation does to the columns of an overlay what it does to the overlay. -/
theorem columns_eq {overlay : Overlay} {columns : Columns} (disjoint : columns.Disjoint)
    (same : ∀ key, columns.read key = overlay.read key) : overlay.columns = columns :=
  overlay.disjoint_columns.ext_read disjoint fun key => (read_columns overlay key).trans (same key).symm

theorem columns_set (overlay : Overlay) (key : Key) (value : Value) :
    (overlay.set key value).columns = overlay.columns.set key value := by
  apply columns_eq (overlay.disjoint_columns.set key value)
  intro other
  rw [Columns.read_set, read_columns, read_set]

theorem columns_delete (overlay : Overlay) (key : Key) :
    (overlay.delete key).columns = overlay.columns.delete key := by
  apply columns_eq (overlay.disjoint_columns.delete key)
  intro other
  rw [Columns.read_delete, read_columns, read_delete]

theorem columns_ofEffects (effects : List Effect) :
    (ofEffects effects).columns = Columns.ofEffects effects :=
  columns_eq (Columns.disjoint_ofEffects effects) (Columns.read_ofEffects effects)

theorem columns_merge (prior : Option Overlay) (effects : List Effect) :
    (merge prior effects).columns = Columns.merge (prior.map columns) effects := by
  cases prior with
  | none =>
    rw [merge, Option.getD_none, empty_extend]
    exact columns_ofEffects effects
  | some prior =>
    apply columns_eq ((Columns.disjoint_ofEffects effects).carry prior.disjoint_columns)
    intro key
    rw [Columns.read_carry, Columns.read_ofEffects, read_columns, merge, read_extend]
    rfl

end Overlay

/-- One way to go on from what is pending. -/
inductive Building where
  | set (key : Key) (value : Value)
  | delete (key : Key)
  /-- Starts over with what effects leave pending. -/
  | ofEffects (effects : List Effect)
  /-- Folds effects in on top of what is pending, or of nothing. -/
  | merge (keep : Bool) (effects : List Effect)

def Overlay.step (overlay : Overlay) : Building → Overlay
  | .set key value => overlay.set key value
  | .delete key => overlay.delete key
  | .ofEffects effects => .ofEffects effects
  | .merge keep effects => .merge (if keep then some overlay else none) effects

def Columns.step (columns : Columns) : Building → Columns
  | .set key value => columns.set key value
  | .delete key => columns.delete key
  | .ofEffects effects => .ofEffects effects
  | .merge keep effects => .merge (if keep then some columns else none) effects

def Overlay.build (steps : List Building) : Overlay := steps.foldl step .empty

def Columns.build (steps : List Building) : Columns := steps.foldl step .empty

namespace Overlay

theorem columns_step (overlay : Overlay) (step : Building) :
    (overlay.step step).columns = overlay.columns.step step := by
  cases step with
  | set key value => exact columns_set overlay key value
  | delete key => exact columns_delete overlay key
  | ofEffects effects => exact columns_ofEffects effects
  | merge keep effects =>
    refine (columns_merge _ effects).trans ?_
    cases keep <;> rfl

/-- Whatever is done to an overlay is done to its columns, so these never have a key in common. -/
theorem columns_build (steps : List Building) : (build steps).columns = Columns.build steps := by
  have start : empty.columns = .empty :=
    columns_eq Columns.disjoint_empty fun key => by rw [Columns.read_empty, read_empty]
  rw [build, Columns.build, ← start]
  generalize empty = overlay
  induction steps generalizing overlay with
  | nil => rfl
  | cons step steps ih => rw [List.foldl_cons, List.foldl_cons, ih, columns_step]

end Overlay

namespace Snapshot

/-- Commits two columns: the deletions are taken out before the changes are put in. -/
def applyColumns (snapshot : Snapshot) (columns : Columns) : Snapshot :=
  columns.changes.foldl (fun state key value => state.commit key (.changed value))
    (columns.deletes.foldl (fun state key => state.commit key .deleted) snapshot)

theorem applyColumns_eq (snapshot : Snapshot) (overlay : Overlay) :
    snapshot.applyColumns overlay.columns = snapshot.apply overlay := by
  apply ext_get?
  funext key
  rw [get?_apply, applyColumns,
    KeyMap.read_foldl fun state entry value key => get?_commit state entry key (.changed value),
    KeySet.read_foldl fun state entry key => get?_commit state entry key .deleted,
    Overlay.getElem?_columns_changes, Overlay.onto_eq]
  simp only [Overlay.mem_columns_deletes]
  rcases overlay.read key with _ | _ | _ <;> rfl

end Snapshot
end GroupedLedger
