import GroupedLedger.Proofs.Batches
import GroupedLedger.Proofs.Columns

namespace GroupedLedger

namespace Effect

/-- Whether an effect has a say in what is pending under a key. -/
def Decides (effect : Effect) (key : Key) : Prop :=
  effect.status ≠ .conflict ∧ key ∈ effect.changedKeys

instance (effect : Effect) (key : Key) : Decidable (effect.Decides key) :=
  inferInstanceAs (Decidable (_ ∧ _))

theorem read_lasting_eq_none_iff {effect : Effect} {key : Key} :
    effect.lasting.read key = none ↔ ¬effect.Decides key := by
  rw [lasting, Decides]
  split
  · rename_i rejected
    simp [rejected]
  · rename_i kept
    simp [kept, read_overlay_eq_none]

theorem read_lasting_of_decides {effect : Effect} {key : Key} (decides : effect.Decides key) :
    effect.lasting.read key =
      if key ∈ effect.deletes then some .deleted else effect.writes[key]?.map .changed := by
  rw [lasting, if_neg decides.1, read_overlay]

end Effect

namespace Overlay

variable {effects : List Effect} {key : Key}

theorem read_ofEffects_eq_none_iff :
    (ofEffects effects).read key = none ↔ ∀ effect ∈ effects, ¬effect.Decides key := by
  induction effects with
  | nil => simp
  | cons effect effects ih =>
    rw [ofEffects_cons, read_extend, Option.or_eq_none_iff, ih, Effect.read_lasting_eq_none_iff,
      List.forall_mem_cons, and_comm]

theorem read_ofEffects_last {before after : List Effect} {effect : Effect}
    (decides : effect.Decides key) (last : ∀ later ∈ after, ¬later.Decides key) :
    (ofEffects (before ++ effect :: after)).read key = effect.lasting.read key := by
  have decided : effect.lasting.read key ≠ none :=
    fun none => Effect.read_lasting_eq_none_iff.mp none decides
  rw [ofEffects_append, ofEffects_cons, read_extend, read_extend,
    read_ofEffects_eq_none_iff.mpr last, Option.none_or]
  exact Option.or_of_isSome (Option.isSome_iff_ne_none.mpr decided)

theorem read_merge (prior : Option Overlay) (effects : List Effect) (key : Key) :
    (merge prior effects).read key =
      ((ofEffects effects).read key).or (prior.bind fun overlay => overlay.read key) := by
  rw [merge, read_extend]
  cases prior with
  | none => rw [Option.getD_none, read_empty, Option.bind_none]
  | some overlay => rfl

/-- Lists of effects act on what is pending and on states. Two lists may be folded in one after the
other or as one, and it is the same to start from nothing pending or from an empty overlay. What is
left pending may be committed at once or in two goes, and read from where it was committed, through
it, or through two layers. An overlay kept in two columns is merged, committed and read as it is
when kept as one. -/
theorem merge_acts (base : Snapshot) (prior : Option Overlay) (pending : Overlay)
    (first rest : List Effect) :
    merge (some (merge prior first)) rest = merge prior (first ++ rest) ∧
    merge none first = merge (some .empty) first ∧
    base.apply (merge (some pending) first) = (base.apply pending).apply (ofEffects first) ∧
    (∀ key, let found := (base.apply (merge (some pending) first)).get? key
      (base.view.through (merge (some pending) first).read).get? key = found ∧
      ((base.view.through pending.read).through (ofEffects first).read).get? key = found) ∧
    (merge prior first).columns = Columns.merge (prior.map columns) first ∧
    base.apply pending = base.applyColumns pending.columns ∧
    ∀ key, pending.read key = pending.columns.read key := by
  refine ⟨merge_merge prior first rest, rfl, (base.apply_apply _ _).symm, ?_,
    columns_merge prior first, (base.applyColumns_eq pending).symm,
    fun key => (read_columns pending key).symm⟩
  intro key found
  have committed : (merge (some pending) first).onto base.get? key = found :=
    (congrFun (base.get?_apply _) key).symm
  have layers := congrFun (merge_onto pending first base.get?) key
  exact ⟨committed, layers.symm.trans committed⟩

/-- However an overlay is built, a key is never pending both for a change and for deletion, though
two columns could hold both. After folding in effects, a key reads as the last effect left it that
decides on it, and a key both written and deleted by that one reads as deleted. A key on which no
effect decides reads as before, and no other key is known. -/
theorem merge_reads_last :
    (∀ steps, (Columns.build steps).Disjoint ∧ (build steps).columns = Columns.build steps) ∧
    ∀ (prior : Option Overlay) (effects : List Effect), let merged := merge prior effects
      merged.columns = Columns.merge (prior.map columns) effects ∧
      ∀ key,
        merged.columns.read key = merged.read key ∧
        (∀ before effect after, effects = before ++ effect :: after → effect.Decides key →
          (∀ later ∈ after, ¬later.Decides key) →
          merged.read key =
            if key ∈ effect.deletes then some .deleted else effect.writes[key]?.map .changed) ∧
        ((∀ effect ∈ effects, ¬effect.Decides key) →
          merged.read key = prior.bind fun overlay => overlay.read key) ∧
        (key ∈ merged.columns.changes ∨ key ∈ merged.columns.deletes ↔
          (∃ effect ∈ effects, effect.Decides key) ∨
            ∃ overlay ∈ prior, overlay.read key ≠ none) := by
  constructor
  · intro steps
    have same := columns_build steps
    exact ⟨same ▸ (build steps).disjoint_columns, same⟩
  intro prior effects merged
  refine ⟨columns_merge prior effects, fun key => ⟨read_columns merged key, ?_, ?_, ?_⟩⟩
  · intro before effect after split decides last
    have decided := Effect.read_lasting_of_decides decides
    have present : (effect.lasting.read key).isSome = true := Option.isSome_iff_ne_none.mpr
      fun none => Effect.read_lasting_eq_none_iff.mp none decides
    rw [read_merge, split, read_ofEffects_last decides last, Option.or_of_isSome present, decided]
  · intro undecided
    rw [read_merge, read_ofEffects_eq_none_iff.mpr undecided, Option.none_or]
  · rw [← Columns.knows_iff, Columns.knows_eq_isSome, read_columns, Option.isSome_iff_ne_none,
      read_merge, ne_eq, Option.or_eq_none_iff, read_ofEffects_eq_none_iff,
      Classical.not_and_iff_not_or_not]
    refine or_congr (by simp) ?_
    cases prior with
    | none => simp
    | some overlay => simp

end Overlay

namespace Sample

def contested : Key := .balance alice

def bystander : Key := .balance carol

def pending : Overlay := (Overlay.empty.set contested [1]).set bystander [2]

def wrote : Effect := ((Effect.fresh payBob.id).write contested [3]).finish .mined none []

def wroteAndDeleted : Effect := { wrote with deletes := wrote.deletes.insert contested }

end Sample

theorem Overlay.sample_reads_last :
    let merged := merge (some Sample.pending)
      [Sample.wrote, Sample.wroteAndDeleted, Sample.wrote.demote]
    Sample.wroteAndDeleted.Decides Sample.contested ∧
    ¬Sample.wrote.demote.Decides Sample.contested ∧
    merged.read Sample.contested = some .deleted ∧
    merged.read Sample.bystander = some (.changed [2]) := by
  intro merged
  have decides : Sample.wroteAndDeleted.Decides Sample.contested := by decide +kernel
  have rejected : ¬Sample.wrote.demote.Decides Sample.contested := by decide +kernel
  obtain ⟨_, reads⟩ := merge_reads_last.2 (some Sample.pending)
    [Sample.wrote, Sample.wroteAndDeleted, Sample.wrote.demote]
  obtain ⟨_, last, _⟩ := reads Sample.contested
  obtain ⟨_, _, before, _⟩ := reads Sample.bystander
  refine ⟨decides, rejected, ?_, ?_⟩
  · exact (last [_] _ [_] rfl decides (by simpa using rejected)).trans (by decide +kernel)
  · exact (before (by decide +kernel)).trans (by decide +kernel)

end GroupedLedger
