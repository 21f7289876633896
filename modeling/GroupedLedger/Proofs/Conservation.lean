import GroupedLedger.Proofs.Completeness
import GroupedLedger.Proofs.Isolation
import GroupedLedger.Proofs.Ledgers

namespace GroupedLedger

theorem Bytes.toWord?_eq_none_iff {bytes : Bytes} :
    Bytes.toWord? bytes = none ↔ bytes.length ≠ 8 := by
  simp [Bytes.toWord?]

/-- A batch had its effects on a state, or was cancelled and had none. -/
def Attempted (below : Lookup) (batch : List Transaction) (effects : List Effect) : Prop :=
  effects = Vm.effects below batch ∨
    effects = batch.map fun tx => Effect.failed tx.id Effect.executionCancelled

namespace Attempted

variable {below : Lookup} {batch : List Transaction} {effects : List Effect}

theorem length (h : Attempted below batch effects) : batch.length = effects.length := by
  rcases h with rfl | rfl
  · exact (Vm.length_effects below batch).symm
  · exact (List.length_map _).symm

theorem conserved (h : Attempted below batch effects) :
    Conserved below ((Overlay.ofEffects effects).onto below) (roundsStarted batch effects) := by
  rcases h with rfl | rfl
  · exact Vm.effects_conserved below batch
  · rw [Overlay.ofEffects_failed, Overlay.empty_onto, roundsStarted_eq_zero]
    · exact .refl below
    · intro effect hm
      obtain ⟨tx, _, rfl⟩ := List.mem_map.mp hm
      exact nofun

/-- A group has behind another what it has beside it, if it is isolated from it. -/
theorem behind {before : GroupOutcome} {outcome : GroupOutcome}
    (h : Attempted below batch outcome.effects) (isolated : before.Isolated outcome) :
    Attempted ((Overlay.ofEffects before.effects).onto below) batch outcome.effects := by
  refine h.imp_left fun own => ?_
  rw [own]
  refine (Vm.effects_behind fun one ho other hm key changed touched => ?_).symm
  exact isolated.1 key (GroupOutcome.mem_changed.mpr ⟨one, ho, changed⟩)
    (GroupOutcome.mem_accessed.mpr ⟨other, own ▸ hm, touched⟩)

end Attempted

/-- Groups that are isolated from each other keep together what each of them keeps. -/
theorem conserved_of_isolated {below : Lookup} {batch : GroupOutcome → List Transaction}
    {outcomes : List GroupOutcome} (isolated : outcomes.Pairwise GroupOutcome.Isolated)
    (attempted : ∀ outcome ∈ outcomes, Attempted below (batch outcome) outcome.effects) :
    Conserved below ((Overlay.ofEffects (outcomes.flatMap GroupOutcome.effects)).onto below)
      (roundsStarted (outcomes.flatMap batch) (outcomes.flatMap GroupOutcome.effects)) := by
  induction outcomes generalizing below with
  | nil =>
    rw [List.flatMap_nil, Overlay.ofEffects_nil, Overlay.empty_onto]
    exact .refl below
  | cons first rest ih =>
    obtain ⟨apart, isolated⟩ := List.pairwise_cons.mp isolated
    have here := attempted first (by simp)
    have later := here.conserved.trans <| ih isolated fun outcome hm =>
      (attempted outcome (by simp [hm])).behind (apart outcome hm)
    rwa [Overlay.onto_onto, ← Overlay.ofEffects_append, ← roundsStarted_append here.length] at later

namespace Engine

variable {engine : Engine} {transactions : List Transaction} {header : Header} {base : StateView}
  {prior : Option Overlay} {token : Token} {events : List Event}

theorem serialPhase_effects (contracts : engine.executor = .contracts) {batch : List Transaction}
    {serial : List Effect} {left : Token}
    (ok : engine.serialPhase batch base prior token = (.ok serial, left)) :
    serial = Vm.effects ((prior.getD .empty).onto base.get?) batch := by
  by_cases none : batch = []
  · subst none
    cases ok
    rfl
  · have answered := serialPhase_answered ok none
    rw [contracts] at answered
    exact Vm.execute_ok (Answer.done.inj answered)

/-- What the groups of a block of contract calls went through, whatever the signal did. -/
theorem Concluded.attempted {serial : List Effect} {outcomes : List (GroupOutcome × Bool)}
    {result : BlockResult}
    (h : Concluded engine transactions header base prior token events serial outcomes result)
    (contracts : engine.executor = .contracts) :
    ∀ outcome ∈ outcomes.map Prod.fst, Attempted ((Overlay.merge prior serial).onto base.get?)
      ((engine.partition header transactions).groups.getD outcome.group []) outcome.effects := by
  intro outcome hm
  refine (h.executed outcome hm).imp_left ?_
  rintro ⟨token, answered⟩
  rw [job, contracts] at answered
  exact Vm.execute_ok (Answer.done.inj answered)

theorem Concluded.roundsStarted_effects {serial : List Effect}
    {outcomes : List (GroupOutcome × Bool)} {result : BlockResult}
    (h : Concluded engine transactions header base prior token events serial outcomes result) :
    let partition := engine.partition header transactions
    let accepted := acceptedOutcomes (outcomes.map Prod.fst)
    let rejected := rejectedOutcomes (outcomes.map Prod.fst)
    roundsStarted (partition.serial ++ (partition.members (accepted.map GroupOutcome.group) ++
        (partition.unroutable ++ partition.members (rejected.map GroupOutcome.group))))
      result.effects = roundsStarted partition.serial serial +
        roundsStarted (partition.members (accepted.map GroupOutcome.group))
          (accepted.flatMap GroupOutcome.effects) := by
  intro partition accepted rejected
  obtain ⟨listed, serialCount, acceptedCount, _⟩ := conclude_ok h.drawn
  have accounts := h.accounts
  rw [map_group_accepted, map_group_rejected] at accounts
  have tail : ∀ effect ∈ (partition.unroutable.map fun tx =>
      Effect.failed tx.id Effect.invalidContract) ++
        (resolve (outcomes.map Prod.fst)).rejectedEffects.map Effect.demote,
      effect.status ≠ .mined := by
    intro effect hm
    rcases List.mem_append.mp hm with hm | hm
    · obtain ⟨tx, _, rfl⟩ := List.mem_map.mp hm
      exact nofun
    · obtain ⟨kept, _, rfl⟩ := List.mem_map.mp hm
      exact nofun
  have stripped : (resolve (outcomes.map Prod.fst)).acceptedEffects.map Effect.status =
      (accepted.flatMap GroupOutcome.effects).map Effect.status := by
    rw [acceptedEffects_resolve, List.map_map]
    rfl
  rw [listed, roundsStarted_append (accounts.serial.symm.trans serialCount),
    roundsStarted_append (accounts.accepted_count.symm.trans acceptedCount),
    roundsStarted_eq_zero tail, roundsStarted_congr stripped, Nat.add_zero]

/-- A block of contract calls keeps the ledger. -/
theorem Concluded.conserved {serial : List Effect} {outcomes : List (GroupOutcome × Bool)}
    {result : BlockResult}
    (h : Concluded engine transactions header base prior token events serial outcomes result)
    (contracts : engine.executor = .contracts) :
    let partition := engine.partition header transactions
    let accepted := acceptedOutcomes (outcomes.map Prod.fst)
    Conserved ((prior.getD .empty).onto base.get?) ((result.overlay prior).onto base.get?)
      (roundsStarted partition.serial serial +
        roundsStarted (partition.members (accepted.map GroupOutcome.group))
          (accepted.flatMap GroupOutcome.effects)) := by
  intro partition accepted
  obtain ⟨left, serially, grouped⟩ := h.phases
  have first : Attempted ((prior.getD .empty).onto base.get?) partition.serial serial :=
    .inl (serialPhase_effects contracts serially)
  have tracked :=
    (Pool.outcomes_ok (Pool.length_slots_groupPhase engine _ _ _ _ _) grouped).tracked
  have later := conserved_of_isolated (acceptedOutcomes_isolated tracked) fun outcome hm =>
    h.attempted contracts outcome ((acceptedOutcomes_sublist _).subset hm)
  have pending : (Overlay.merge prior serial).onto base.get? =
      (Overlay.ofEffects serial).onto ((prior.getD .empty).onto base.get?) := by
    rw [Overlay.onto_onto]
    rfl
  rw [conclude_overlay h.drawn, Overlay.merge_append, ← Overlay.onto_onto, pending,
    Partition.members, List.flatMap_map]
  rw [pending] at later
  exact first.conserved.trans later

/-- However a block of contract calls is grouped, run and interrupted, all balances together come to
the same, what is no balance and the setting are left alone, and the round goes up by one for every
transaction that started a round. -/
theorem execute_conserves (engine : Engine) (transactions : List Transaction) (header : Header)
    (base : Snapshot) (trips : Key → Bool) (prior : Option Overlay) (token : Token)
    (events : List Event) (result : BlockResult) (contracts : engine.executor = .contracts)
    (ran : engine.execute transactions header ⟨base.get?, trips⟩ prior token events =
      .ok result) :
    ∃ accepted rejected,
      result.Accounts (engine.partition header transactions) transactions accepted rejected ∧
      let partition := engine.partition header transactions
      let started := roundsStarted (partition.serial ++ (partition.members accepted ++
        (partition.unroutable ++ partition.members rejected))) result.effects
      let before := (base.apply (prior.getD .empty)).get?
      let after := (base.apply (result.overlay prior)).get?
      Lookup.supply after = Lookup.supply before ∧
      (∀ owner value, value.length ≠ 8 →
        (after (Key.balance owner) = some value ↔ before (Key.balance owner) = some value)) ∧
      after Key.tokenConfig = before Key.tokenConfig ∧
      (∀ round, Lookup.word? before Key.round = some round →
        ∃ next, Lookup.word? after Key.round = some next ∧
          next.toNat = round.toNat + started) ∧
      ∀ value, before Key.round = some value → value.length ≠ 8 →
        after Key.round = some value ∧ started = 0 := by
  obtain ⟨serial, outcomes, concluded⟩ := execute_ok ran
  refine ⟨_, _, concluded.accounts, ?_⟩
  have conserved := concluded.conserved contracts
  have started := concluded.roundsStarted_effects
  simp only [map_group_accepted, map_group_rejected, Snapshot.get?_apply, started]
  refine ⟨conserved.supply, ?_, conserved.setting, ?_, ?_⟩
  · intro owner value other
    exact conserved.eq_some_iff (Bytes.toWord?_eq_none_iff.mpr other)
  · intro round held
    have readable := conserved.numeric Key.round (by rw [held]; exact Option.some_ne_none round)
    obtain ⟨next, reached⟩ := Option.ne_none_iff_exists'.mp readable
    have counted := conserved.round
    rw [Lookup.number_of_word? held, Lookup.number_of_word? reached] at counted
    exact ⟨next, reached, counted⟩
  · intro value held other
    have unreadable := Bytes.toWord?_eq_none_iff.mpr other
    refine ⟨(conserved.eq_some_iff unreadable).mpr held, conserved.stuck ?_⟩
    rw [Lookup.word?, held]
    exact unreadable

theorem sample_conserves :
    ∃ result accepted rejected,
      Sample.engine.execute Sample.block Sample.header Sample.genesis.view none .quiet [.step 1 0] =
        .ok result ∧
      result.Accounts (Sample.engine.partition Sample.header Sample.block) Sample.block accepted
        rejected ∧
      Lookup.supply (Sample.genesis.apply (result.overlay none)).get? =
        Lookup.supply (Sample.genesis.apply .empty).get? := by
  obtain ⟨result, ran⟩ := Sample.exists_result
  obtain ⟨accepted, rejected, accounts, supply, _⟩ :=
    execute_conserves _ _ _ Sample.genesis (fun _ => false) _ _ _ result rfl ran
  exact ⟨result, accepted, rejected, ran, accounts, supply⟩

end Engine
end GroupedLedger
