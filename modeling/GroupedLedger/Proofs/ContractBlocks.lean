import GroupedLedger.Proofs.Batches
import GroupedLedger.Proofs.Failures

namespace GroupedLedger

theorem Vm.effects_fine (below : Lookup) (transactions : List Transaction) :
    effectsFault? transactions (Vm.effects below transactions) = none := by
  refine effectsFault?_eq_none_iff.mpr ⟨effects_map_id below transactions, ?_⟩
  intro one mem
  obtain ⟨tx, _, found, rfl⟩ := exists_of_mem_effects mem
  exact Effect.isConsistent_iff.mpr (effect_consistent found tx)

/-- The outcomes of groups that are each executed on the same state. -/
def speculated (below : Lookup) (groups : List (List Transaction)) : List GroupOutcome :=
  groups.zipIdx.map fun entry => ⟨entry.2, Vm.effects below entry.1⟩

theorem effects_of_mem_speculated {below : Lookup} {groups : List (List Transaction)}
    {outcome : GroupOutcome} (mem : outcome ∈ speculated below groups) :
    outcome.effects = Vm.effects below (groups.getD outcome.group []) := by
  obtain ⟨⟨group, place⟩, hm, rfl⟩ := List.mem_map.mp mem
  have here := List.mem_zipIdx_iff_getElem?.mp hm
  simp only at here
  rw [List.getD_eq_getElem?_getD, here, Option.getD_some]

theorem answering_speculated (below : Lookup) (groups : List (List Transaction)) :
    Answering groups (speculated below groups) where
  placed := by
    rw [speculated, List.map_map, List.range_eq_range', ← List.zipIdx_map_snd 0 groups]
    rfl
  fitting outcome mem := by
    rw [effects_of_mem_speculated mem]
    exact Vm.effects_fine _ _

theorem fst_uncancelled (outcomes : List GroupOutcome) :
    (outcomes.map fun outcome => (outcome, false)).map Prod.fst = outcomes := by
  rw [List.map_map]
  exact List.map_id outcomes

theorem slotOutcome_effects (below : Lookup) (group : Nat) (transactions : List Transaction) :
    slotOutcome group transactions (some (.ok (Vm.effects below transactions))) =
      .ok (⟨group, Vm.effects below transactions⟩, false) := by
  simp only [slotOutcome, checkEffects, Vm.effects_fine]
  rfl

theorem mapM_slotOutcome (below : Lookup) (groups : List (List Transaction)) (first : Nat) :
    ((groups.zip (groups.map fun group => some (Except.ok (Vm.effects below group)))).zipIdx
        first).mapM (fun entry => slotOutcome entry.2 entry.1.1 entry.1.2) =
      .ok ((groups.zipIdx first).map fun entry =>
        ((⟨entry.2, Vm.effects below entry.1⟩ : GroupOutcome), false)) := by
  induction groups generalizing first with
  | nil => rfl
  | cons group groups ih =>
    simp only [List.map_cons, List.zip_cons_cons, List.zipIdx_cons, List.mapM_cons, ih,
      slotOutcome_effects]
    rfl

namespace Engine

variable {engine : Engine} {transactions : List Transaction} {header : Header} {base : StateView}
  {prior : Option Overlay} {events : List Event}

theorem outcomes_contracts (contracts : engine.executor = .contracts)
    (calm : ∀ key, base.trips key = false) (quiet : .signal ∉ events)
    (groups : List (List Transaction)) (overlay : Overlay) :
    (engine.groupPhase groups base overlay false events).outcomes groups =
      .ok ((speculated (overlay.onto base.get?) groups).map fun outcome => (outcome, false)) := by
  have steady : engine.executor.Steady base _ := contracts ▸ Executor.contracts_steady calm
  obtain ⟨up, _, slots, _⟩ := finished_of_reaches steady engine.threads groups overlay
    (groupPhase_reaches engine groups base overlay quiet) (groupPhase_atRest _ _ _ _ _ _)
  have answered : (engine.groupPhase groups base overlay false events).Answered := by
    intro slot hm
    rw [slots] at hm
    obtain ⟨group, _, rfl⟩ := List.mem_map.mp hm
    exact ⟨_, rfl, rfl⟩
  rw [Pool.outcomes_of_unfailed up answered.unfailed, slots, speculated, List.map_map]
  exact mapM_slotOutcome (overlay.onto base.get?) groups 0

theorem serialPhase_contracts (contracts : engine.executor = .contracts)
    (calm : ∀ key, base.trips key = false) (batch : List Transaction) :
    engine.serialPhase batch base prior .quiet =
      (.ok (Vm.effects ((prior.getD .empty).onto base.get?) batch), .quiet) := by
  simp only [serialPhase, contracts, Executor.contracts, Vm.execute_quiet calm]
  split
  · rename_i none
    rw [List.isEmpty_iff.mp none]
    rfl
  · simp only [checkEffects, Vm.effects_fine]

theorem execute_contracts (contracts : engine.executor = .contracts)
    (calm : ∀ key, base.trips key = false) (quiet : .signal ∉ events)
    (valid : (engine.partition header transactions).fault?
      (transactions.map Transaction.id) = none) :
    let serial := Vm.effects ((prior.getD .empty).onto base.get?)
      (engine.partition header transactions).serial
    engine.execute transactions header base prior .quiet events =
      conclude (engine.partition header transactions) transactions.length serial
        ((speculated ((Overlay.merge prior serial).onto base.get?)
          (engine.partition header transactions).groups).map fun outcome => (outcome, false)) := by
  rw [execute_of_down Token.poll_quiet, valid]
  simp only [serialPhase_contracts contracts calm, Token.raised_quiet,
    outcomes_contracts contracts calm quiet]
  rfl

/-- A block of contract calls has a result as soon as its partition is valid. -/
theorem exists_result_contracts (contracts : engine.executor = .contracts)
    (calm : ∀ key, base.trips key = false) (quiet : .signal ∉ events)
    (valid : (engine.partition header transactions).fault?
      (transactions.map Transaction.id) = none) :
    ∃ result, engine.execute transactions header base prior .quiet events = .ok result := by
  rw [execute_contracts contracts calm quiet valid]
  refine (conclude_accounts valid (Vm.effects_fine _ _) ?_).imp fun _ h => h.1
  rw [fst_uncancelled]
  exact answering_speculated _ _

theorem Concluded.contracts {serial : List Effect} {outcomes : List (GroupOutcome × Bool)}
    {result : BlockResult}
    (h : Concluded engine transactions header base prior .quiet events serial outcomes result)
    (contracts : engine.executor = .contracts) (calm : ∀ key, base.trips key = false)
    (quiet : .signal ∉ events) :
    serial = Vm.effects ((prior.getD .empty).onto base.get?)
        (engine.partition header transactions).serial ∧
      outcomes.map Prod.fst = speculated ((Overlay.merge prior serial).onto base.get?)
        (engine.partition header transactions).groups := by
  obtain ⟨left, serially, grouped⟩ := h.phases
  rw [show Token.quiet.poll.2 = .quiet from rfl, serialPhase_contracts contracts calm] at serially
  cases serially
  rw [Token.raised_quiet, outcomes_contracts contracts calm quiet] at grouped
  cases grouped
  exact ⟨rfl, fst_uncancelled _⟩

end Engine

theorem Sample.exists_result : ∃ result, Sample.engine.execute Sample.block Sample.header
    Sample.genesis.view none .quiet [.step 1 0] = .ok result :=
  Engine.exists_result_contracts rfl (fun _ => rfl) (by decide) Sample.partition_fault

end GroupedLedger
