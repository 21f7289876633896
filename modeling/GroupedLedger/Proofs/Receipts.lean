import GroupedLedger.Proofs.Blooms
import GroupedLedger.Proofs.Cancellations
import GroupedLedger.Proofs.Conservation

namespace GroupedLedger

namespace Effect

/-- The receipt says what the effect says, and no key is both written and deleted. -/
structure Sealed (effect : Effect) : Prop where
  exclusive : effect.Exclusive
  id : effect.receipt.id = effect.id
  status : effect.receipt.status = effect.status
  bloom : effect.receipt.bloom = effect.bloom

theorem sealed_finish {effect : Effect} (exclusive : effect.Exclusive) (status : Status)
    (error : Option String) (returned : Value) : (effect.finish status error returned).Sealed :=
  ⟨exclusive, rfl, rfl, rfl⟩

theorem sealed_failed (id : Digest) (error : String) : (failed id error).Sealed :=
  sealed_finish (exclusive_fresh id) _ _ _

theorem Sealed.demote {effect : Effect} (h : effect.Sealed) : effect.demote.Sealed :=
  ⟨h.exclusive, h.id, rfl, h.bloom⟩

theorem Sealed.keepChanged {effect : Effect} (h : effect.Sealed) (outcomes : List GroupOutcome) :
    (effect.keepChanged outcomes).Sealed :=
  ⟨h.exclusive, h.id, h.status, h.bloom⟩

/-- The bloom that finishing an effect fixes finds every key touched until then. -/
theorem contains_bloom_finish (effect : Effect) (status : Status) (error : Option String)
    (returned : Value) {key : Key} (touched : key ∈ effect.accesses) :
    (effect.finish status error returned).bloom.contains key.bytes = true :=
  Bloom.contains_ofInputs (List.mem_map_of_mem (mem_accessedKeys.mpr touched))

/-- What a block's result has for an effect of one of its groups: the same changes, and of the notes
about touched keys those about keys that some group changed. -/
structure Kept (outcomes : List GroupOutcome) (effect kept : Effect) : Prop where
  id : kept.id = effect.id
  writes : kept.writes = effect.writes
  deletes : kept.deletes = effect.deletes
  bloom : kept.bloom = effect.bloom
  accesses : ∀ key access, kept.accesses[key]? = some access ↔
    effect.accesses[key]? = some access ∧ ∃ outcome ∈ outcomes, key ∈ outcome.changed

variable {outcomes : List GroupOutcome} {effect kept : Effect}

theorem kept_keepChanged (outcomes : List GroupOutcome) (effect : Effect) :
    Kept outcomes effect (effect.keepChanged outcomes) := by
  refine ⟨rfl, rfl, rfl, rfl, fun key access => ?_⟩
  rw [getElem?_accesses_keepChanged, Option.filter_eq_some_iff, List.any_eq_true]
  simp only [Std.ExtTreeSet.contains_iff_mem]

theorem Kept.demote (h : Kept outcomes effect kept) : Kept outcomes effect kept.demote :=
  ⟨h.id, h.writes, h.deletes, h.bloom, h.accesses⟩

/-- The notes that are dropped are about keys that the effect did not change. -/
theorem Kept.isConsistent (h : Kept outcomes effect kept)
    (consistent : effect.isConsistent = true) {outcome : GroupOutcome} (mem : outcome ∈ outcomes)
    (noted : effect ∈ outcome.effects) : kept.isConsistent = true := by
  refine isConsistent_iff.mpr fun key changed => ?_
  have own : key ∈ effect.changedKeys := by
    rw [mem_changedKeys] at changed ⊢
    rwa [h.writes, h.deletes] at changed
  have touched := isConsistent_iff.mp consistent key own
  rw [Std.ExtTreeMap.mem_iff_isSome_getElem?, Option.isSome_iff_exists] at touched ⊢
  obtain ⟨access, found⟩ := touched
  -- The effect's own group is one that changed the key.
  have changedHere : key ∈ outcome.changed := GroupOutcome.mem_changed.mpr ⟨effect, noted, own⟩
  exact ⟨access, (h.accesses key access).mpr ⟨found, outcome, mem, changedHere⟩⟩

end Effect

namespace Vm

theorem effect_sealed (below : Lookup) (tx : Transaction) : (effect below tx).Sealed := by
  have exclusive : (tx.procedure.run ⟨below, fun _ => false⟩
      ⟨Effect.fresh tx.id, false⟩).2.effect.Exclusive :=
    tx.procedure.within_any.run_keeps (fun _ _ _ h => h) (fun _ key value _ h => h.write key value)
      (fun _ key _ h => h.delete key) _ (Effect.exclusive_fresh tx.id)
  rw [effect, transact_eq]
  cases (tx.procedure.run _ _).1 with
  | ok returned => exact Effect.sealed_finish exclusive _ _ _
  | error failure => exact Effect.sealed_finish (Effect.exclusive_clear _) _ _ _

theorem contains_bloom_effect (below : Lookup) (tx : Transaction) {key : Key}
    (touched : key ∈ (effect below tx).accesses) :
    (effect below tx).bloom.contains key.bytes = true := by
  rw [effect, transact_eq] at touched ⊢
  rw [accesses_finished] at touched
  cases (tx.procedure.run _ _).1 with
  | ok returned => exact Effect.contains_bloom_finish _ _ _ _ touched
  | error failure => exact Effect.contains_bloom_finish _ _ _ _ touched

theorem sealed_of_mem_effects {below : Lookup} {transactions : List Transaction} {one : Effect}
    (mem : one ∈ effects below transactions) :
    one.Sealed ∧ ∀ key ∈ one.accesses, one.bloom.contains key.bytes = true := by
  obtain ⟨tx, _, found, rfl⟩ := exists_of_mem_effects mem
  exact ⟨effect_sealed found tx, fun key => contains_bloom_effect found tx⟩

end Vm

theorem Attempted.sealed {below : Lookup} {batch : List Transaction} {effects : List Effect}
    (h : Attempted below batch effects) : ∀ one ∈ effects,
      one.Sealed ∧ ∀ key ∈ one.accesses, one.bloom.contains key.bytes = true := by
  intro one mem
  rcases h with rfl | rfl
  · exact Vm.sealed_of_mem_effects mem
  · obtain ⟨tx, _, rfl⟩ := List.mem_map.mp mem
    exact ⟨Effect.sealed_failed _ _, fun key => Effect.contains_bloom_finish _ _ _ _⟩

namespace Engine

variable {engine : Engine} {transactions : List Transaction} {header : Header} {base : StateView}
  {prior : Option Overlay} {token : Token} {events : List Event}

theorem Concluded.effects_eq {serial : List Effect} {outcomes : List (GroupOutcome × Bool)}
    {result : BlockResult}
    (h : Concluded engine transactions header base prior token events serial outcomes result) :
    let all := outcomes.map Prod.fst
    result.effects = serial ++
      (((acceptedOutcomes all).flatMap GroupOutcome.effects).map (Effect.keepChanged all) ++
        (((engine.partition header transactions).unroutable.map fun tx =>
            Effect.failed tx.id Effect.invalidContract) ++
          ((rejectedOutcomes all).flatMap GroupOutcome.effects).map fun effect =>
            (effect.keepChanged all).demote)) := by
  intro all
  rw [(conclude_ok h.drawn).1, acceptedEffects_keepChanged, rejectedEffects_keepChanged,
    List.map_map]
  rfl

/-- What is true of serial effects and of failed ones, and of a group's effects once they are
stripped and once they are marked, is true of all effects of a block. -/
theorem Concluded.forall_effects {serial : List Effect} {outcomes : List (GroupOutcome × Bool)}
    {result : BlockResult}
    (h : Concluded engine transactions header base prior token events serial outcomes result)
    {P : Effect → Prop} (serially : ∀ effect ∈ serial, P effect)
    (failed : ∀ id error, P (Effect.failed id error))
    (kept : ∀ outcome ∈ outcomes.map Prod.fst, ∀ effect ∈ outcome.effects,
      P (effect.keepChanged (outcomes.map Prod.fst)) ∧
        P (effect.keepChanged (outcomes.map Prod.fst)).demote) :
    ∀ effect ∈ result.effects, P effect := by
  intro effect mem
  simp only [h.effects_eq, List.mem_append, List.mem_map, List.mem_flatMap] at mem
  rcases mem with hs | ⟨raw, ⟨outcome, ho, hm⟩, rfl⟩ | ⟨tx, _, rfl⟩ | ⟨raw, ⟨outcome, ho, hm⟩, rfl⟩
  · exact serially effect hs
  · exact (kept outcome ((acceptedOutcomes_sublist _).subset ho) raw hm).1
  · exact failed tx.id _
  · exact (kept outcome ((rejectedOutcomes_sublist _).subset ho) raw hm).2

/-- Whatever the executor answers, every effect of a block's result notes the keys it changed. The
serial effects are as the executor gave them, and those of the groups have lost the notes about the
keys that no group changed, and nothing else. The effects of contract calls also agree with their
receipts, change no key twice over, and have blooms that still find every key that was touched. -/
theorem execute_keeps_effects (engine : Engine) (transactions : List Transaction) (header : Header)
    (base : StateView) (prior : Option Overlay) (token : Token) (events : List Event)
    (result : BlockResult)
    (ran : engine.execute transactions header base prior token events = .ok result) :
    let partition := engine.partition header transactions
    ∃ serial left outcomes accepted rejected,
      engine.Entered transactions header base prior token serial left ∧
      (partition.serial ≠ [] →
        (engine.executor.execute .serial partition.serial base (prior.getD .empty) token.poll.2).1 =
          .done (.ok serial)) ∧
      List.Forall₂ (fun entry => Pool.Settled
          (engine.job partition.groups base (Overlay.merge prior serial))
          (engine.groupsPool transactions header base prior serial left events) entry.2 entry.1)
        partition.groups.zipIdx outcomes ∧
      let all := outcomes.map Prod.fst
      (acceptedOutcomes all ++ rejectedOutcomes all).Perm all ∧
      result.effects = serial ++ (accepted ++
        ((partition.unroutable.map fun tx => Effect.failed tx.id Effect.invalidContract) ++
          rejected)) ∧
      List.Forall₂ (Effect.Kept all) ((acceptedOutcomes all).flatMap GroupOutcome.effects)
        accepted ∧
      List.Forall₂ (Effect.Kept all) ((rejectedOutcomes all).flatMap GroupOutcome.effects)
        rejected ∧
      (∀ effect ∈ result.effects, effect.isConsistent = true) ∧
      (engine.executor = .contracts →
        (∀ effect ∈ result.effects, effect.Sealed) ∧
        ∀ effect ∈ serial ++ all.flatMap GroupOutcome.effects,
          ∀ key ∈ effect.accesses, effect.bloom.contains key.bytes = true) := by
  intro partition
  obtain ⟨serial, left, outcomes, entered, grouped, concluded⟩ := entered_of_execute ran
  refine ⟨serial, left, outcomes, _, _, entered, serialPhase_answered entered.serially,
    settled_groupPhase grouped, accepted_append_rejected _, concluded.effects_eq, ?_, ?_, ?_, ?_⟩
  · exact List.forall₂_map_right_iff.mpr (List.forall₂_same.mpr fun effect _ =>
      Effect.kept_keepChanged _ effect)
  · exact List.forall₂_map_right_iff.mpr (List.forall₂_same.mpr fun effect _ =>
      (Effect.kept_keepChanged _ effect).demote)
  · have answering := Pool.outcomes_ok (Pool.length_slots_groupPhase engine _ _ _ _ _) grouped
    refine concluded.forall_effects ?_ Effect.isConsistent_failed ?_
    · exact (effectsFault?_eq_none_iff.mp (serialPhase_ok entered.serially)).2
    · intro outcome ho effect hm
      have consistent := (effectsFault?_eq_none_iff.mp (answering.fitting outcome ho)).2 effect hm
      have kept := Effect.kept_keepChanged (outcomes.map Prod.fst) effect
      exact ⟨kept.isConsistent consistent ho hm, kept.demote.isConsistent consistent ho hm⟩
  · intro contracts
    have serially : ∀ effect ∈ serial, effect.Sealed ∧
        ∀ key ∈ effect.accesses, effect.bloom.contains key.bytes = true := by
      rw [serialPhase_effects contracts entered.serially]
      exact fun effect => Vm.sealed_of_mem_effects
    have grouped : ∀ outcome ∈ outcomes.map Prod.fst, ∀ effect ∈ outcome.effects,
        effect.Sealed ∧ ∀ key ∈ effect.accesses, effect.bloom.contains key.bytes = true :=
      fun outcome ho => (concluded.attempted contracts outcome ho).sealed
    constructor
    · refine concluded.forall_effects (fun effect hs => (serially effect hs).1)
        Effect.sealed_failed fun outcome ho effect hm => ?_
      have kept := (grouped outcome ho effect hm).1.keepChanged (outcomes.map Prod.fst)
      exact ⟨kept, kept.demote⟩
    · intro effect mem
      rcases List.mem_append.mp mem with hs | hm
      · exact (serially effect hs).2
      · obtain ⟨outcome, ho, hm⟩ := List.mem_flatMap.mp hm
        exact (grouped outcome ho effect hm).2

theorem sample_keeps_effects :
    ∃ result serial,
      Sample.engine.execute Sample.block Sample.header Sample.genesis.view none .quiet [.step 1 0] =
        .ok result ∧
      (Sample.engine.executor.execute .serial [Sample.nextRound] Sample.genesis.view .empty .quiet).1 =
        .done (.ok serial) ∧
      ∀ effect ∈ result.effects, effect.isConsistent = true ∧ effect.Sealed := by
  obtain ⟨result, ran⟩ := Sample.exists_result
  obtain ⟨serial, _, _, _, _, _, answered, _, _, _, _, _, consistent, sealed⟩ :=
    execute_keeps_effects _ _ _ _ _ _ _ result ran
  have serially : (Sample.engine.partition Sample.header Sample.block).serial =
      [Sample.nextRound] := rfl
  simp only [serially, Token.poll_quiet, Option.getD_none] at answered
  exact ⟨result, serial, ran, answered (List.cons_ne_nil _ _),
    fun effect mem => ⟨consistent effect mem, (sealed rfl).1 effect mem⟩⟩

end Engine

end GroupedLedger
