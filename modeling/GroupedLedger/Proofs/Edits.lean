import GroupedLedger.Proofs.Blooms
import GroupedLedger.Proofs.Overlays
import Mathlib.Data.List.Induction

namespace GroupedLedger

namespace Edit

/-- An edit that takes nothing back and notes what it does. -/
inductive Plain : Edit → Prop
  | read (key : Key) : Plain (.read key)
  | write (key : Key) (value : Value) : Plain (.write key value)
  | delete (key : Key) : Plain (.delete key)
  | finish (status : Status) (error : Option String) (returned : Value) :
      Plain (.finish status error returned)
  | demote : Plain .demote

/-- What an edit leaves pending under a key, if it changes it. -/
def change? (key : Key) : Edit → Option Pending
  | .write written value => if written = key then some (.changed value) else none
  | .delete deleted => if deleted = key then some .deleted else none
  | _ => none

def Changes (key : Key) : Edit → Prop
  | .write written _ => written = key
  | .delete deleted => deleted = key
  | _ => False

def Mentions (key : Key) : Edit → Prop
  | .read looked => looked = key
  | .write written _ => written = key
  | .delete deleted => deleted = key
  | _ => False

def Finishes : Edit → Prop
  | .finish _ _ _ => True
  | _ => False

/-- The edit is one of these, and none after it changes the key. -/
def Last (key : Key) (edits : List Edit) (edit : Edit) : Prop :=
  ∃ before after, edits = before ++ edit :: after ∧ ∀ later ∈ after, ¬later.Changes key

variable {key : Key} {edit : Edit} {edits : List Edit}

theorem change?_eq_none_iff : edit.change? key = none ↔ ¬edit.Changes key := by
  cases edit <;> simp [change?, Changes]

theorem change?_changed_iff {value : Value} :
    edit.change? key = some (.changed value) ↔ edit = .write key value := by
  cases edit <;> simp [change?]

theorem change?_deleted_iff : edit.change? key = some .deleted ↔ edit = .delete key := by
  cases edit <;> simp [change?]

theorem Changes.mentions (h : edit.Changes key) : edit.Mentions key := by
  cases edit with
  | read looked => exact h.elim
  | _ => exact h

/-- What edits together leave pending under a key. -/
def lastChange? (key : Key) (edits : List Edit) : Option Pending :=
  edits.reverse.findSome? (change? key)

theorem lastChange?_concat : lastChange? key (edits ++ [edit]) =
    (edit.change? key).or (lastChange? key edits) := by
  rw [lastChange?, List.reverse_concat, List.findSome?_cons]
  cases edit.change? key <;> rfl

theorem lastChange?_eq_some_iff {pending : Pending} : lastChange? key edits = some pending ↔
    ∃ edit, edit.change? key = some pending ∧ Last key edits edit := by
  simp only [lastChange?, List.findSome?_eq_some_iff, change?_eq_none_iff]
  constructor
  · intro ⟨after, edit, before, split, changing, unchanged⟩
    refine ⟨edit, changing, before.reverse, after.reverse, ?_, ?_⟩
    · rw [← List.reverse_reverse edits, split]
      simp
    · intro later mem
      exact unchanged later (List.mem_reverse.mp mem)
  · intro ⟨edit, changing, before, after, split, unchanged⟩
    refine ⟨after.reverse, edit, before.reverse, ?_, changing, ?_⟩
    · rw [split]
      simp
    · intro later mem
      exact unchanged later (List.mem_reverse.mp mem)

end Edit

theorem Access.eq_of_write_iff {a b : Access} (same : a = .write ↔ b = .write) : b = a := by
  cases a <;> cases b <;> simp_all

namespace Effect

open Edit (Last lastChange?)

variable {effect : Effect} {step : Edit} {steps : List Edit} {key : Key}

theorem Exclusive.getElem?_writes_iff (h : effect.Exclusive) {value : Value} :
    effect.writes[key]? = some value ↔ effect.overlay.read key = some (.changed value) := by
  rw [read_overlay]
  by_cases deleted : key ∈ effect.deletes
  · simp [deleted, Std.ExtTreeMap.getElem?_eq_none (h key deleted)]
  · simp [deleted]

theorem mem_deletes_iff : key ∈ effect.deletes ↔ effect.overlay.read key = some .deleted := by
  rw [read_overlay]
  split <;> simp [*]

theorem read_overlay_edit (plain : step.Plain) : (effect.edit step).overlay.read key =
    (step.change? key).or (effect.overlay.read key) := by
  cases plain with
  | read looked => rfl
  | write written value =>
    rw [edit, overlay_write, Overlay.read_set, Edit.change?]
    split <;> rfl
  | delete deleted =>
    rw [edit, overlay_delete, Overlay.read_delete, Edit.change?]
    split <;> rfl
  | finish status error returned => rfl
  | demote => rfl

theorem mem_accesses_edit (plain : step.Plain) : key ∈ (effect.edit step).accesses ↔
    key ∈ effect.accesses ∨ step.Mentions key := by
  cases plain with
  | read looked => rw [edit, mem_accesses_read, or_comm, eq_comm, Edit.Mentions]
  | write written value => rw [edit, mem_accesses_write, or_comm, eq_comm, Edit.Mentions]
  | delete deleted => rw [edit, mem_accesses_delete, or_comm, eq_comm, Edit.Mentions]
  | finish status error returned => simp [edit, finish, Edit.Mentions]
  | demote => simp [edit, demote, Edit.Mentions]

/-- A change is noted as one, and no later read takes that back. -/
theorem accesses_edit_write_iff (plain : step.Plain) :
    (effect.edit step).accesses[key]? = some .write ↔
      effect.accesses[key]? = some .write ∨ step.Changes key := by
  cases plain with
  | read looked =>
    simp only [edit, getElem?_accesses_read, Edit.Changes, or_false]
    split
    · rename_i unknown
      have absent := Std.ExtTreeMap.getElem?_eq_none (unknown.1 ▸ unknown.2)
      simp [absent]
    · rfl
  | write written value =>
    simp only [edit, write, Std.ExtTreeMap.getElem?_insert, Edit.Changes, Std.compare_eq_iff_eq]
    split <;> simp [*]
  | delete deleted =>
    simp only [edit, delete, Std.ExtTreeMap.getElem?_insert, Edit.Changes, Std.compare_eq_iff_eq]
    split <;> simp [*]
  | finish status error returned => simp [edit, finish, Edit.Changes]
  | demote => simp [edit, demote, Edit.Changes]

theorem Exclusive.edit (h : effect.Exclusive) (plain : step.Plain) : (effect.edit step).Exclusive := by
  cases plain with
  | read looked => exact h
  | write written value => exact h.write written value
  | delete deleted => exact h.delete deleted
  | finish status error returned => exact h
  | demote => exact h

theorem receipt_bloom_edit (same : effect.receipt.bloom = effect.bloom) (step : Edit) :
    (effect.edit step).receipt.bloom = (effect.edit step).bloom := by
  cases step with
  | finish status error returned => rfl
  | _ => exact same

theorem bloom_edit (unfinished : ¬step.Finishes) : (effect.edit step).bloom = effect.bloom := by
  cases step with
  | finish status error returned => exact absurd trivial unfinished
  | _ => rfl

theorem read_overlay_edits (id : Digest) (plain : ∀ step ∈ steps, step.Plain) :
    (steps.foldl edit (fresh id)).overlay.read key = lastChange? key steps := by
  induction steps using List.reverseRecOn with
  | nil => rw [List.foldl_nil, overlay_fresh, Overlay.read_empty]; rfl
  | append_singleton before last ih =>
    rw [List.foldl_append, List.foldl_cons, List.foldl_nil, read_overlay_edit (plain last (by simp)),
      ih fun step mem => plain step (by simp [mem]), Edit.lastChange?_concat]

theorem mem_accesses_edits (id : Digest) (plain : ∀ step ∈ steps, step.Plain) :
    key ∈ (steps.foldl edit (fresh id)).accesses ↔ ∃ step ∈ steps, step.Mentions key := by
  have folded := foldl_iff_exists (P := fun effect => key ∈ effect.accesses)
    (fun step mem _ => mem_accesses_edit (plain step mem)) (fresh id)
  simpa [fresh] using folded

theorem accesses_edits_write_iff (id : Digest) (plain : ∀ step ∈ steps, step.Plain) :
    (steps.foldl edit (fresh id)).accesses[key]? = some .write ↔
      ∃ step ∈ steps, step.Changes key := by
  have folded := foldl_iff_exists (P := fun effect => effect.accesses[key]? = some .write)
    (fun step mem _ => accesses_edit_write_iff (plain step mem)) (fresh id)
  simpa [fresh] using folded

theorem exclusive_edits (id : Digest) (plain : ∀ step ∈ steps, step.Plain) :
    (steps.foldl edit (fresh id)).Exclusive :=
  List.foldlRecOn steps edit (exclusive_fresh id) fun _ h step mem => h.edit (plain step mem)

theorem receipt_bloom_edits (id : Digest) (steps : List Edit) :
    (steps.foldl edit (fresh id)).receipt.bloom = (steps.foldl edit (fresh id)).bloom :=
  List.foldlRecOn (motive := fun effect => effect.receipt.bloom = effect.bloom) steps edit rfl
    fun _ same step _ => receipt_bloom_edit same step

theorem bloom_edits (effect : Effect) (unfinished : ∀ step ∈ steps, ¬step.Finishes) :
    (steps.foldl edit effect).bloom = effect.bloom := by
  induction steps generalizing effect with
  | nil => rfl
  | cons first rest ih =>
    rw [List.foldl_cons, ih _ fun step mem => unfinished step (by simp [mem]),
      bloom_edit (unfinished first (by simp))]

theorem mem_changedKeys_edits {id : Digest} (plain : ∀ step ∈ steps, step.Plain)
    (changed : key ∈ (steps.foldl edit (fresh id)).changedKeys) : ∃ step ∈ steps, step.Changes key := by
  have pending : (steps.foldl edit (fresh id)).overlay.read key ≠ none := by
    rwa [ne_eq, read_overlay_eq_none, not_not]
  rw [read_overlay_edits id plain, Option.ne_none_iff_exists'] at pending
  obtain ⟨pending, found⟩ := pending
  obtain ⟨step, changing, before, after, split, _⟩ := Edit.lastChange?_eq_some_iff.mp found
  refine ⟨step, by simp [split], ?_⟩
  by_contra unchanged
  rw [Edit.change?_eq_none_iff.mpr unchanged] at changing
  cases changing

/-- The bloom has the bits of the keys touched before the effect was last finished. -/
theorem getLsbD_bloom_edits (id : Digest) {before after : List Edit} {status : Status}
    {error : Option String} {returned : Value} {place : Nat} (plain : ∀ step ∈ before, step.Plain)
    (unfinished : ∀ step ∈ after, ¬step.Finishes) :
    ((before ++ .finish status error returned :: after).foldl edit
        (fresh id)).bloom.bits.getLsbD place = true ↔
      ∃ key, (∃ step ∈ before, step.Mentions key) ∧
        place ∈ Bloom.places (keccak256 key.bytes).bytes := by
  rw [List.foldl_append, List.foldl_cons, bloom_edits _ unfinished, edit, finish, accessBloom,
    Bloom.getLsbD_ofInputs]
  simp [mem_accessedKeys, mem_accesses_edits id plain]

/-- Whatever edits are made to a fresh effect that take nothing back and note what they do: a key is
written or deleted as its last write or delete says, the keys mentioned are noted and those changed
by some edit noted as written, no key is both written and deleted, and the receipt has the effect's
bloom. Once the effect was finished, its bloom is made of the bits of the keys mentioned before that
and finds them all, in whatever order the edits before it and after it came. -/
theorem edits_keep_last (id : Digest) (steps : List Edit) (plain : ∀ step ∈ steps, step.Plain) :
    let effect := steps.foldl edit (fresh id)
    (∀ key value, effect.writes[key]? = some value ↔ Last key steps (.write key value)) ∧
    (∀ key, key ∈ effect.deletes ↔ Last key steps (.delete key)) ∧
    (∀ key access, effect.accesses[key]? = some access ↔
      (∃ step ∈ steps, step.Mentions key) ∧ (access = .write ↔ ∃ step ∈ steps, step.Changes key)) ∧
    (∀ key ∈ effect.deletes, key ∉ effect.writes) ∧
    effect.isConsistent = true ∧
    effect.receipt.bloom = effect.bloom ∧
    ∀ before status error returned after,
      steps = before ++ .finish status error returned :: after →
      (∀ step ∈ after, ¬step.Finishes) →
      (∀ place, effect.bloom.bits.getLsbD place = true ↔
        ∃ key, (∃ step ∈ before, step.Mentions key) ∧
          place ∈ Bloom.places (keccak256 key.bytes).bytes) ∧
      (∀ step ∈ before, ∀ key, step.Mentions key → effect.bloom.contains key.bytes = true) ∧
      ∀ earlier later, earlier.Perm before → later.Perm after →
        ((earlier ++ .finish status error returned :: later).foldl edit (fresh id)).bloom =
          effect.bloom := by
  intro effect
  have exclusive : effect.Exclusive := exclusive_edits id plain
  refine ⟨?_, ?_, ?_, exclusive, ?_, receipt_bloom_edits id steps, ?_⟩
  · intro key value
    rw [exclusive.getElem?_writes_iff, read_overlay_edits id plain, Edit.lastChange?_eq_some_iff]
    simp only [Edit.change?_changed_iff, exists_eq_left]
  · intro key
    rw [mem_deletes_iff, read_overlay_edits id plain, Edit.lastChange?_eq_some_iff]
    simp only [Edit.change?_deleted_iff, exists_eq_left]
  · intro key access
    rw [← mem_accesses_edits id plain, ← accesses_edits_write_iff id plain,
      Std.ExtTreeMap.mem_iff_isSome_getElem?]
    constructor
    · intro found
      simp [effect, found]
    · intro ⟨noted, kind⟩
      obtain ⟨other, found⟩ := Option.isSome_iff_exists.mp noted
      rw [found, Option.some.injEq] at kind
      rw [found, Access.eq_of_write_iff kind]
  · refine isConsistent_iff.mpr fun key changed => ?_
    obtain ⟨step, mem, changes⟩ := mem_changedKeys_edits plain changed
    exact (mem_accesses_edits id plain).mpr ⟨step, mem, changes.mentions⟩
  · intro before status error returned after split unfinished
    have sealing : ∀ earlier later, earlier.Perm before → later.Perm after → ∀ place,
        ((earlier ++ .finish status error returned :: later).foldl edit
            (fresh id)).bloom.bits.getLsbD place = true ↔
          ∃ key, (∃ step ∈ before, step.Mentions key) ∧
            place ∈ Bloom.places (keccak256 key.bytes).bytes := by
      intro earlier later first rest place
      rw [getLsbD_bloom_edits id (fun step mem => plain step (by simp [split, first.mem_iff.mp mem]))
        fun step mem => unfinished step (rest.mem_iff.mp mem)]
      simp only [first.mem_iff]
    have own := sealing before after (.refl before) (.refl after)
    rw [← split] at own
    refine ⟨own, fun step mem key mentions => ?_, fun earlier later first rest => ?_⟩
    · exact Bloom.contains_iff.mpr fun place chosen =>
        (own place).mpr ⟨key, ⟨step, mem, mentions⟩, chosen⟩
    · exact Bloom.ext_getLsbD fun place =>
        (sealing earlier later first rest place).trans (own place).symm

end Effect

namespace Sample

def settled : Key := ⟨[1]⟩

def late : Key := ⟨[2]⟩

def edits : List Edit :=
  [.write settled [3], .delete settled, .write settled [4], .read settled, .finish .mined none [],
    .read late, .demote]

end Sample

theorem Effect.sample_edits_keep_last :
    let effect := Sample.edits.foldl edit (fresh (.filled 32 0))
    (∀ step ∈ Sample.edits, step.Plain) ∧
    effect.writes[Sample.settled]? = some [4] ∧
    effect.accesses[Sample.settled]? = some .write ∧
    effect.accesses[Sample.late]? = some .read ∧
    effect.bloom.contains Sample.settled.bytes = true := by
  intro effect
  have plain : ∀ step ∈ Sample.edits, step.Plain := by
    intro step mem
    simp only [Sample.edits, List.mem_cons, List.not_mem_nil, or_false] at mem
    rcases mem with rfl | rfl | rfl | rfl | rfl | rfl | rfl <;> constructor
  obtain ⟨writes, _, accesses, _, _, _, finished⟩ :=
    edits_keep_last (.filled 32 0) Sample.edits plain
  have sealing := finished (Sample.edits.take 4) .mined none [] [.read Sample.late, .demote] rfl
    (by simp [Edit.Finishes])
  refine ⟨plain, (writes Sample.settled [4]).mpr ?_, (accesses Sample.settled .write).mpr ?_,
    (accesses Sample.late .read).mpr ?_, ?_⟩
  · exact ⟨Sample.edits.take 2, Sample.edits.drop 3, rfl, by simp [Sample.edits, Edit.Changes]⟩
  · simp [Sample.edits, Edit.Mentions, Edit.Changes]
  · simp [Sample.edits, Edit.Mentions, Edit.Changes, Sample.settled, Sample.late]
  · exact sealing.2.1 (.read Sample.settled) (by simp [Sample.edits]) Sample.settled rfl

end GroupedLedger
