import GroupedLedger.Proofs.Isolation
import GroupedLedger.Proofs.Completeness

namespace GroupedLedger
namespace Vm

/-- Groups of which none touches what an earlier one changes might as well run one after the
other. -/
theorem effects_flatten {below : Lookup} {groups : List (List Transaction)}
    (apart : groups.Pairwise fun earlier later => ∀ one ∈ effects below earlier,
      ∀ other ∈ effects below later, ∀ key ∈ one.changedKeys, key ∉ other.accesses) :
    effects below groups.flatten = groups.flatMap (effects below) := by
  induction groups with
  | nil => rfl
  | cons group groups ih =>
    obtain ⟨first, rest⟩ := List.pairwise_cons.mp apart
    -- The later groups run on what `group` left, but touch none of it.
    have unseen : effects ((Overlay.ofEffects (effects below group)).onto below) groups.flatten =
        effects below groups.flatten := by
      apply effects_behind
      intro one he other hm
      rw [ih rest, List.mem_flatMap] at hm
      obtain ⟨later, hl, ho⟩ := hm
      exact first later hl one he other ho
    rw [List.flatten_cons, effects_append, unseen, ih rest, List.flatMap_cons]

end Vm

/-- What an accepted group changed, no other accepted group touched. -/
theorem unseen_of_accepted {below : Lookup} {groups : List (List Transaction)} :
    (acceptedOutcomes (speculated below groups)).Pairwise fun earlier later =>
      ∀ one ∈ earlier.effects, ∀ other ∈ later.effects,
        ∀ key ∈ one.changedKeys, key ∉ other.accesses := by
  refine (acceptedOutcomes_isolated (answering_speculated below groups).tracked).imp ?_
  intro earlier later isolated one ho other hl key changed touched
  exact isolated.1 key (GroupOutcome.mem_changed.mpr ⟨one, ho, changed⟩)
    (GroupOutcome.mem_accessed.mpr ⟨other, hl, touched⟩)

theorem effects_accepted (below : Lookup) (partition : Partition) :
    let accepted := acceptedOutcomes (speculated below partition.groups)
    Vm.effects below (partition.members (accepted.map GroupOutcome.group)) =
      accepted.flatMap GroupOutcome.effects := by
  intro accepted
  let batch (outcome : GroupOutcome) := partition.groups.getD outcome.group []
  have own : ∀ outcome ∈ accepted, outcome.effects = Vm.effects below (batch outcome) :=
    fun outcome hm => effects_of_mem_speculated ((acceptedOutcomes_sublist _).subset hm)
  have members : partition.members (accepted.map GroupOutcome.group) =
      (accepted.map batch).flatten := by
    rw [Partition.members, List.flatMap_map, List.flatMap_def]
  have apart : (accepted.map batch).Pairwise fun earlier later =>
      ∀ one ∈ Vm.effects below earlier, ∀ other ∈ Vm.effects below later,
        ∀ key ∈ one.changedKeys, key ∉ other.accesses := by
    rw [List.pairwise_map]
    refine unseen_of_accepted.imp_of_mem ?_
    intro earlier later he hl unseen
    rwa [own earlier he, own later hl] at unseen
  rw [members, Vm.effects_flatten apart, List.flatMap_map]
  exact List.flatMap_congr fun outcome hm => (own outcome hm).symm

namespace Engine

/-- A block of contract calls, however it is grouped, does what a single batch of its serial
transactions and then its accepted groups does, up to the notes about read-only keys. -/
theorem execute_serializable (engine : Engine) (transactions : List Transaction) (header : Header)
    (base : Snapshot) (prior : Option Overlay) (events : List Event) (result : BlockResult)
    (contracts : engine.executor = .contracts) (quiet : .signal ∉ events)
    (ran : engine.execute transactions header base.view prior .quiet events = .ok result) :
    ∃ serial outcomes effects,
      Concluded engine transactions header base.view prior .quiet events serial outcomes result ∧
      let partition := engine.partition header transactions
      let resolution := resolve (outcomes.map Prod.fst)
      Vm.execute
          (partition.serial ++ partition.members (resolution.accepted.map GroupOutcome.group))
          base.view (prior.getD .empty) .quiet = (.ok effects, .quiet) ∧
        effects.length = result.serial + result.accepted ∧
        result.effects.take (result.serial + result.accepted) = effects.take result.serial ++
          (effects.drop result.serial).map (Effect.strip · resolution.readOnly) ∧
        Overlay.merge prior effects = result.overlay prior := by
  obtain ⟨serial, outcomes, concluded⟩ := execute_ok ran
  obtain ⟨hs, ho⟩ := concluded.contracts contracts (fun _ => rfl) quiet
  obtain ⟨listed, serialCount, acceptedCount, _⟩ := conclude_ok concluded.drawn
  have pending := conclude_overlay concluded.drawn prior
  generalize hp : engine.partition header transactions = partition at hs ho listed
  have below : (Overlay.merge prior serial).onto base.view.get? =
      (Overlay.ofEffects serial).onto ((prior.getD .empty).onto base.view.get?) := by
    rw [Overlay.onto_onto]
    rfl
  rw [below] at ho
  have accepted := effects_accepted
    ((Overlay.ofEffects serial).onto ((prior.getD .empty).onto base.view.get?)) partition
  simp only [← ho] at accepted
  refine ⟨serial, outcomes,
    serial ++ (acceptedOutcomes (outcomes.map Prod.fst)).flatMap GroupOutcome.effects, concluded,
    ?_, ?_, ?_, pending.symm⟩
  · rw [Vm.execute_quiet fun _ => rfl, map_group_accepted, Vm.effects_append, ← hs, accepted]
  · rw [serialCount, acceptedCount, acceptedEffects_resolve, List.length_append, List.length_map]
  · rw [serialCount, acceptedCount, listed, ← List.append_assoc,
      List.take_left' List.length_append, List.take_left' rfl, List.drop_left' rfl,
      acceptedEffects_resolve, resolve_eq]

theorem sample_serializable :
    ∃ result effects readOnly,
      Sample.crowded.execute Sample.payments Sample.header Sample.funded.view none .quiet
        [.step 1 0] = .ok result ∧
      Vm.execute [Sample.nextRound, Sample.payBob, Sample.payErin] Sample.funded.view .empty
        .quiet = (.ok effects, .quiet) ∧
      result.effects.take 3 =
        effects.take 1 ++ (effects.drop 1).map (Effect.strip · readOnly) ∧
      Overlay.merge none effects = result.overlay none := by
  have quiet : Event.signal ∉ [Event.step 1 0] := by decide
  obtain ⟨result, ran⟩ := Sample.crowded_ok
  obtain ⟨serial, outcomes, effects, concluded, batch, _, listed, pending⟩ :=
    execute_serializable _ _ _ Sample.funded _ _ result rfl quiet ran
  have accounts := concluded.accounts
  have accepted := (Sample.crowded_resolved concluded).1
  rw [← map_group_accepted] at accepted
  have serialCount : result.serial = 1 := accounts.serial
  have acceptedCount : result.accepted = 2 := by
    rw [accounts.accepted_count, accepted]
    rfl
  rw [accepted] at batch
  rw [serialCount, acceptedCount] at listed
  exact ⟨result, effects, _, ran, batch, listed, pending⟩

end Engine
end GroupedLedger
