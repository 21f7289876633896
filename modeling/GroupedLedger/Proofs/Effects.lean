import GroupedLedger.Effect

namespace GroupedLedger.Effect

theorem mem_accessedKeys {effect : Effect} {key : Key} :
    key ∈ effect.accessedKeys ↔ key ∈ effect.accesses :=
  Std.ExtTreeMap.mem_keys

theorem mem_changedKeys {effect : Effect} {key : Key} :
    key ∈ effect.changedKeys ↔ key ∈ effect.writes ∨ key ∈ effect.deletes := by
  simp [changedKeys]

theorem mem_accesses_read {effect : Effect} {read key : Key} :
    key ∈ (effect.read read).accesses ↔ key = read ∨ key ∈ effect.accesses := by
  rw [Effect.read, Std.ExtTreeMap.mem_insertIfNew, Std.compare_eq_iff_eq, eq_comm]

theorem mem_accesses_write {effect : Effect} {written key : Key} {value : Value} :
    key ∈ (effect.write written value).accesses ↔ key = written ∨ key ∈ effect.accesses := by
  rw [Effect.write, Std.ExtTreeMap.mem_insert, Std.compare_eq_iff_eq, eq_comm]

theorem mem_accesses_delete {effect : Effect} {deleted key : Key} :
    key ∈ (effect.delete deleted).accesses ↔ key = deleted ∨ key ∈ effect.accesses := by
  rw [Effect.delete, Std.ExtTreeMap.mem_insert, Std.compare_eq_iff_eq, eq_comm]

theorem mem_changedKeys_write {effect : Effect} {written key : Key} {value : Value}
    (changed : key ∈ (effect.write written value).changedKeys) :
    key = written ∨ key ∈ effect.changedKeys := by
  rw [mem_changedKeys] at changed ⊢
  rcases changed with hw | hd
  · rw [write, Std.ExtTreeMap.mem_insert, Std.compare_eq_iff_eq] at hw
    exact hw.imp Eq.symm .inl
  · exact .inr (.inr (Std.ExtTreeSet.mem_of_mem_erase hd))

theorem mem_changedKeys_delete {effect : Effect} {deleted key : Key}
    (changed : key ∈ (effect.delete deleted).changedKeys) :
    key = deleted ∨ key ∈ effect.changedKeys := by
  rw [mem_changedKeys] at changed ⊢
  rcases changed with hw | hd
  · exact .inr (.inl (Std.ExtTreeMap.mem_of_mem_erase hw))
  · rw [delete, Std.ExtTreeSet.mem_insert, Std.compare_eq_iff_eq] at hd
    exact hd.imp Eq.symm .inr

theorem not_mem_changedKeys_clear (effect : Effect) (key : Key) :
    key ∉ effect.clear.changedKeys := by
  simp [mem_changedKeys, clear]

theorem isConsistent_iff {effect : Effect} :
    effect.isConsistent = true ↔ ∀ key ∈ effect.changedKeys, key ∈ effect.accesses := by
  simp [isConsistent]

theorem isConsistent_failed (id : Digest) (error : String) :
    (failed id error).isConsistent = true := by
  apply isConsistent_iff.mpr
  intro key changed
  simp [mem_changedKeys, failed, fresh, finish] at changed

theorem getElem?_accesses_read (effect : Effect) (read key : Key) :
    (effect.read read).accesses[key]? =
      if read = key ∧ read ∉ effect.accesses then some .read else effect.accesses[key]? := by
  rw [Effect.read, Std.ExtTreeMap.getElem?_insertIfNew]
  simp

/-- No key is both written and deleted. -/
def Exclusive (effect : Effect) : Prop := ∀ key ∈ effect.deletes, key ∉ effect.writes

theorem exclusive_fresh (id : Digest) : (fresh id).Exclusive := by
  intro key deleted
  simp [fresh] at deleted

theorem exclusive_clear (effect : Effect) : effect.clear.Exclusive := by
  intro key deleted
  simp [clear] at deleted

theorem Exclusive.write {effect : Effect} (h : effect.Exclusive) (written : Key) (value : Value) :
    (effect.write written value).Exclusive := by
  intro key deleted mem
  rw [Effect.write, Std.ExtTreeSet.mem_erase, ne_eq, Std.compare_eq_iff_eq] at deleted
  rw [Effect.write, Std.ExtTreeMap.mem_insert, Std.compare_eq_iff_eq] at mem
  exact h key deleted.2 (mem.resolve_left deleted.1)

theorem Exclusive.delete {effect : Effect} (h : effect.Exclusive) (deleted : Key) :
    (effect.delete deleted).Exclusive := by
  intro key gone mem
  rw [Effect.delete, Std.ExtTreeSet.mem_insert, Std.compare_eq_iff_eq] at gone
  rw [Effect.delete, Std.ExtTreeMap.mem_erase, ne_eq, Std.compare_eq_iff_eq] at mem
  exact h key (gone.resolve_left mem.1) mem.2

/-- The effect notes a read only of keys that may be read and a change only of keys that may be
changed, and every change is noted. -/
structure Confined (reads changes : Key → Prop) (effect : Effect) : Prop where
  noted : ∀ key access, effect.accesses[key]? = some access →
    access = .read ∧ reads key ∨ access = .write ∧ changes key
  changed : ∀ key ∈ effect.changedKeys, effect.accesses[key]? = some .write

variable {reads changes : Key → Prop} {effect : Effect}

theorem confined_fresh (id : Digest) : (fresh id).Confined reads changes := by
  constructor
  · intro key access found
    simp [fresh] at found
  · intro key changed
    simp [mem_changedKeys, fresh] at changed

theorem Confined.read (h : effect.Confined reads changes) {key : Key} (may : reads key) :
    (effect.read key).Confined reads changes := by
  constructor
  · intro other access found
    rw [getElem?_accesses_read] at found
    split at found
    · rename_i own
      exact .inl ⟨(Option.some.inj found).symm, own.1 ▸ may⟩
    · exact h.noted other access found
  · intro other changed
    have before := h.changed other changed
    rw [getElem?_accesses_read, if_neg, before]
    -- A change is noted already, so it is not taken back by a later read.
    rintro ⟨rfl, unknown⟩
    exact unknown (Std.ExtTreeMap.mem_iff_isSome_getElem?.mpr (by rw [before]; rfl))

/-- A write and a delete note the same. -/
theorem Confined.change (h : effect.Confined reads changes) {key : Key} (may : changes key)
    {after : Effect} (noted : after.accesses = effect.accesses.insert key .write)
    (changed : ∀ other ∈ after.changedKeys, other = key ∨ other ∈ effect.changedKeys) :
    after.Confined reads changes := by
  have found : ∀ other, after.accesses[other]? =
      if key = other then some .write else effect.accesses[other]? := by
    intro other
    rw [noted, Std.ExtTreeMap.getElem?_insert]
    simp
  constructor
  · intro other access here
    rw [found] at here
    split at here
    · rename_i own
      exact .inr ⟨(Option.some.inj here).symm, own ▸ may⟩
    · exact h.noted other access here
  · intro other mem
    rw [found]
    split
    · rfl
    · rename_i different
      exact h.changed other ((changed other mem).resolve_left (Ne.symm different))

theorem Confined.may_change (h : effect.Confined reads changes) {key : Key}
    (changed : key ∈ effect.changedKeys) : changes key := by
  rcases h.noted key _ (h.changed key changed) with ⟨read, _⟩ | ⟨_, may⟩
  · cases read
  · exact may

theorem Confined.may_touch (h : effect.Confined reads changes) {key : Key}
    (touched : key ∈ effect.accesses) : reads key ∨ changes key := by
  obtain ⟨access, found⟩ := Option.isSome_iff_exists.mp
    (Std.ExtTreeMap.mem_iff_isSome_getElem?.mp touched)
  exact (h.noted key access found).imp And.right And.right

theorem Confined.touches (h : effect.Confined reads changes) {key : Key}
    (changed : key ∈ effect.changedKeys) : key ∈ effect.accesses :=
  Std.ExtTreeMap.mem_iff_isSome_getElem?.mpr (Option.isSome_of_mem (h.changed key changed))

end GroupedLedger.Effect
