import GroupedLedger.Proofs.Executions
import GroupedLedger.Proofs.Footprints

namespace GroupedLedger

/-- The items of a list at the places that are kept. -/
def keptAt {α : Type} (keep : Nat → Bool) (items : List α) : List α :=
  (items.zipIdx.filter fun entry => keep entry.2).map Prod.fst

section Kept

variable {α : Type} {keep : Nat → Bool}

theorem keptAt_cons (item : α) (items : List α) :
    keptAt keep (item :: items) =
      if keep 0 then item :: keptAt (fun place => keep (place + 1)) items
      else keptAt (fun place => keep (place + 1)) items := by
  have rest : ((items.zipIdx 1).filter fun entry => keep entry.2).map Prod.fst =
      keptAt (fun place => keep (place + 1)) items := by
    rw [List.zipIdx_succ, List.filter_map, List.map_map]
    rfl
  rw [keptAt, List.zipIdx_cons, List.filter_cons]
  cases keep 0 with
  | true => simp [rest]
  | false => simp [rest]

end Kept

theorem Overlay.ofEffects_keptAt {keep : Nat → Bool} {effects : List Effect}
    (idle : ∀ place effect, effects[place]? = some effect → keep place = false →
      effect.lasting = .empty) : ofEffects (keptAt keep effects) = ofEffects effects := by
  induction effects generalizing keep with
  | nil => rfl
  | cons effect effects ih =>
    have later := ih fun place other found => idle (place + 1) other found
    rw [keptAt_cons]
    cases hk : keep 0 with
    | true => simp [ofEffects_cons, later]
    | false =>
      have first := idle 0 effect rfl hk
      simp [ofEffects_cons, later, first]

namespace Vm

variable {below : Lookup} {tx : Transaction}

theorem unchanged_finished {answer : Except CallFailure Value} {effect : Effect}
    (failed : (finished answer effect).status = .failed) :
    (finished answer effect).writes = ∅ ∧ (finished answer effect).deletes = ∅ := by
  cases answer with
  | ok returned => cases failed
  | error failure => exact ⟨rfl, rfl⟩

/-- A failed transaction has changed nothing, whatever its call had written before it failed. -/
theorem effect_of_failed (failed : (effect below tx).status = .failed) :
    (effect below tx).writes = ∅ ∧ (effect below tx).deletes = ∅ := by
  rw [effect, transact_eq] at failed ⊢
  exact unchanged_finished failed

theorem lasting_of_failed (failed : (effect below tx).status = .failed) :
    (effect below tx).lasting = .empty := by
  apply lasting_of_not_mined
  simp [failed]

/-- Without some of the failed transactions of a batch, the others have the same effects. -/
theorem effects_keptAt {keep : Nat → Bool} {transactions : List Transaction}
    (failed : ∀ place one, (effects below transactions)[place]? = some one →
      keep place = false → one.status = .failed) :
    effects below (keptAt keep transactions) = keptAt keep (effects below transactions) := by
  induction transactions generalizing below keep with
  | nil => rfl
  | cons tx rest ih =>
    have later := ih fun place one found => failed (place + 1) one found
    rw [effects, keptAt_cons, keptAt_cons]
    cases hk : keep 0 with
    | true => simp [effects, later]
    | false =>
      have idle : (effect below tx).lasting = .empty := lasting_of_failed (failed 0 _ rfl hk)
      rw [idle, Overlay.empty_onto] at later
      simp [idle, later]

/-- A batch sees nothing of a state but what is found under the keys that its effects note as
touched. On any state that has the same values there it comes to the same effects, and it looks up
no other key: the state may trip on all of them. -/
theorem execute_sees_footprint (transactions : List Transaction) {base : StateView}
    (calm : ∀ key, base.trips key = false) (overlay : Overlay) :
    ∃ effects,
      execute transactions base overlay .quiet = (.ok effects, .quiet) ∧
      ∀ (other : StateView) (pending : Overlay),
        (∀ effect ∈ effects, ∀ key ∈ effect.accesses,
          (other.through pending.read).get? key = (base.through overlay.read).get? key ∧
            (other.through pending.read).trips key = false) →
        execute transactions other pending .quiet = (.ok effects, .quiet) := by
  refine ⟨_, execute_quiet calm transactions overlay, ?_⟩
  intro other pending agree
  have seen : effects (pending.onto other.get?) transactions =
      effects (overlay.onto base.get?) transactions :=
    effects_congr fun effect mem key touched => (agree effect mem key touched).1
  -- Only now is it known that the other run notes no key but those it is known not to trip on.
  have untripped := @execute_untripped other pending transactions
  rw [seen] at untripped
  exact untripped fun effect mem key touched => (agree effect mem key touched).2

/-- Paying Carol fails after the payment was taken off what Bob has. It makes no difference whether
what she has is persisted or pending, and what a bystander has is not even looked up. -/
theorem sample_sees_footprint :
    let bystander := Key.balance (.filled 20 4)
    let other := (Sample.genesis.insert bystander [4]).watched [bystander]
    let pending := Overlay.empty.set (.balance Sample.carol) [1]
    ∃ effects,
      execute Sample.block Sample.spoiled.view .empty .quiet = (.ok effects, .quiet) ∧
      execute Sample.block other pending .quiet = (.ok effects, .quiet) := by
  intro bystander other pending
  have calm : ∀ key, Sample.spoiled.view.trips key = false := fun _ => rfl
  obtain ⟨effects, ran, elsewhere⟩ := execute_sees_footprint Sample.block calm .empty
  refine ⟨effects, ran, elsewhere other pending ?_⟩
  have alike : ∀ tx ∈ Sample.block, ∀ key ∈ Key.tokenConfig :: tx.resources,
      (other.through pending.read).get? key =
          (Sample.spoiled.view.through Overlay.empty.read).get? key ∧
        (other.through pending.read).trips key = false := by
    decide +kernel
  intro effect mem key touched
  rw [execute_ok (congrArg Prod.fst ran)] at mem
  obtain ⟨tx, ht, found, rfl⟩ := exists_of_mem_effects mem
  apply alike tx ht
  rcases mem_resources_of_accessed touched with own | setting
  · exact List.mem_cons_of_mem _ own
  · simp [setting]

/-- A failed transaction leaves no trace. Every transaction is mined or has failed, a failed one has
changed nothing, and without any of the failed ones the others come to the same effects and leave
the same pending. -/
theorem execute_without_failed (transactions : List Transaction) {base : StateView}
    (calm : ∀ key, base.trips key = false) (overlay : Overlay) :
    ∃ effects,
      execute transactions base overlay .quiet = (.ok effects, .quiet) ∧
      effects.map Effect.id = transactions.map Transaction.id ∧
      (∀ effect ∈ effects, effect.status = .mined ∨ effect.status = .failed) ∧
      (∀ effect ∈ effects, effect.status = .failed → effect.writes = ∅ ∧ effect.deletes = ∅) ∧
      ∀ keep : Nat → Bool,
        (∀ place effect, effects[place]? = some effect → keep place = false →
          effect.status = .failed) →
        execute (keptAt keep transactions) base overlay .quiet = (.ok (keptAt keep effects), .quiet) ∧
          Overlay.merge (some overlay) (keptAt keep effects) =
            Overlay.merge (some overlay) effects := by
  refine ⟨_, execute_quiet calm transactions overlay, effects_map_id _ _, ?_, ?_, ?_⟩
  · intro one mem
    obtain ⟨tx, _, found, rfl⟩ := exists_of_mem_effects mem
    exact effect_status found tx
  · intro one mem failed
    obtain ⟨tx, _, found, rfl⟩ := exists_of_mem_effects mem
    exact effect_of_failed failed
  · intro keep failed
    constructor
    · rw [execute_quiet calm, effects_keptAt failed]
    · rw [Overlay.merge, Overlay.merge, Overlay.ofEffects_keptAt]
      intro place one found dropped
      obtain ⟨tx, _, below, rfl⟩ := exists_of_mem_effects (List.mem_of_getElem? found)
      exact lasting_of_failed (failed place _ found dropped)

/-- The failed payment to Carol may be left out, though it had been taken off what Bob has. -/
theorem sample_without_failed :
    ∃ effects,
      execute Sample.block Sample.spoiled.view .empty .quiet = (.ok effects, .quiet) ∧
      effects.map Effect.status = [.failed, .failed, .mined, .mined] ∧
      execute [Sample.stray, Sample.payBob, Sample.nextRound] Sample.spoiled.view .empty .quiet =
        (.ok (keptAt (· != 0) effects), .quiet) := by
  have calm : ∀ key, Sample.spoiled.view.trips key = false := fun _ => rfl
  obtain ⟨effects, ran, _, _, _, without⟩ := execute_without_failed Sample.block calm .empty
  have statuses : effects.map Effect.status = [.failed, .failed, .mined, .mined] := by
    rw [execute_ok (congrArg Prod.fst ran)]
    decide +kernel
  refine ⟨effects, ran, statuses, (without (· != 0) ?_).1⟩
  intro place effect found dropped
  obtain rfl : place = 0 := by simpa using dropped
  have status := congrArg (·[0]?) statuses
  simpa [found] using status

end Vm
end GroupedLedger
