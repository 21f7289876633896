import GroupedLedger.Proofs.Answers
import GroupedLedger.Proofs.ContractBlocks
import Mathlib.Data.List.Pairwise

namespace GroupedLedger

namespace GroupOutcome

/-- Every key that the group changed is noted as touched. -/
def Tracked (outcome : GroupOutcome) : Prop := ∀ key ∈ outcome.changed, key ∈ outcome.accessed

/-- Neither group changed a key that the other one touched. -/
def Isolated (a b : GroupOutcome) : Prop :=
  (∀ key ∈ a.changed, key ∉ b.accessed) ∧ ∀ key ∈ b.changed, key ∉ a.accessed

variable {a b outcome : GroupOutcome}

instance : Std.Symm Isolated := ⟨fun _ _ => And.symm⟩

theorem tracked_of_consistent (consistent : ∀ effect ∈ outcome.effects,
    effect.isConsistent = true) : outcome.Tracked := by
  intro key changed
  obtain ⟨effect, hm, changed⟩ := mem_changed.mp changed
  exact mem_accessed.mpr
    ⟨effect, hm, Effect.isConsistent_iff.mp (consistent effect hm) key changed⟩

theorem changed_of_read {key : Key}
    (pending : (Overlay.ofEffects outcome.effects).read key ≠ none) : key ∈ outcome.changed := by
  refine Decidable.byContradiction fun unchanged => pending ?_
  apply Overlay.read_ofEffects_eq_none
  intro effect hm changed
  exact unchanged (mem_changed.mpr ⟨effect, hm, changed⟩)

theorem Isolated.disjoint (isolated : a.Isolated b) (tracked : b.Tracked) :
    (Overlay.ofEffects a.effects).Disjoint (Overlay.ofEffects b.effects) := by
  intro key
  refine Decidable.or_iff_not_imp_left.mpr fun first => ?_
  refine Decidable.byContradiction fun second => ?_
  exact isolated.1 key (changed_of_read first) (tracked key (changed_of_read second))

end GroupOutcome

theorem Answering.tracked {groups : List (List Transaction)} {outcomes : List GroupOutcome}
    (h : Answering groups outcomes) : ∀ outcome ∈ outcomes, outcome.Tracked :=
  fun outcome hm => GroupOutcome.tracked_of_consistent
    (effectsFault?_eq_none_iff.mp (h.fitting outcome hm)).2

/-- Groups that note what they change are isolated from each other once they are accepted. -/
theorem acceptedOutcomes_isolated {outcomes : List GroupOutcome}
    (tracked : ∀ outcome ∈ outcomes, outcome.Tracked) :
    (acceptedOutcomes outcomes).Pairwise GroupOutcome.Isolated := by
  refine (acceptedOutcomes_apart outcomes).imp_of_mem ?_
  intro a b ha hb apart
  have hoa := (acceptedOutcomes_sublist outcomes).subset ha
  have hob := (acceptedOutcomes_sublist outcomes).subset hb
  -- A key touched by both is read-only, so nobody changed it.
  constructor
  · intro key changed touched
    exact (mem_readOnlyKeys.mp (apart key (tracked a hoa key changed) touched)).2 a hoa changed
  · intro key changed touched
    exact (mem_readOnlyKeys.mp (apart key touched (tracked b hob key changed))).2 b hob changed

/-- What the accepted groups leave pending, in whatever order their effects are folded in. -/
theorem ofEffects_accepted_perm {outcomes : List GroupOutcome}
    (tracked : ∀ outcome ∈ outcomes, outcome.Tracked) {order : List (List Effect)}
    (perm : order.Perm ((resolve outcomes).accepted.map GroupOutcome.effects)) :
    Overlay.ofEffects order.flatten =
      Overlay.ofEffects ((acceptedOutcomes outcomes).flatMap GroupOutcome.effects) := by
  have stripped : ∀ outcome : GroupOutcome,
      Overlay.ofEffects (outcome.strip (readOnlyKeys outcomes)).effects =
        Overlay.ofEffects outcome.effects := by
    intro outcome
    apply Overlay.ofEffects_congr
    rw [GroupOutcome.strip, List.map_map]
    rfl
  have disjoint : ((resolve outcomes).accepted.map GroupOutcome.effects).Pairwise fun a b =>
      (Overlay.ofEffects a).Disjoint (Overlay.ofEffects b) := by
    rw [resolve_eq, List.map_map, List.pairwise_map]
    refine (acceptedOutcomes_isolated tracked).imp_of_mem fun {a b} _ hb isolated => ?_
    simp only [Function.comp_apply, stripped]
    exact isolated.disjoint (tracked b ((acceptedOutcomes_sublist outcomes).subset hb))
  rw [← Overlay.ofEffects_flatten_perm perm.symm disjoint, ← List.flatMap_def]
  exact ofEffects_acceptedEffects outcomes

namespace Engine

/-- However a block is grouped and executed: an accepted group changed no key that another accepted
group touched or changed, the order in which accepted groups are folded in does not matter, and
where no accepted group changed a key, it is left as the serial transactions left it. -/
theorem execute_isolated (engine : Engine) (transactions : List Transaction) (header : Header)
    (base : StateView) (prior : Option Overlay) (token : Token) (events : List Event)
    (result : BlockResult)
    (ran : engine.execute transactions header base prior token events = .ok result) :
    ∃ serial outcomes,
      Concluded engine transactions header base prior token events serial outcomes result ∧
      let resolution := resolve (outcomes.map Prod.fst)
      let accepted := acceptedOutcomes (outcomes.map Prod.fst)
      (∀ outcome ∈ accepted, engine.Executed (engine.partition header transactions).groups base
        (Overlay.merge prior serial) outcome) ∧
      (∀ a ∈ accepted, ∀ b ∈ accepted, a ≠ b →
        ∀ key ∈ a.changed, key ∉ b.accessed ∧ key ∉ b.changed) ∧
      (∀ order : List (List Effect),
        order.Perm (resolution.accepted.map GroupOutcome.effects) →
        Overlay.merge prior (serial ++ order.flatten) = result.overlay prior) ∧
      ∀ key, (∀ outcome ∈ accepted, key ∉ outcome.changed) →
        (result.overlay prior).read key = (Overlay.merge prior serial).read key := by
  obtain ⟨serial, outcomes, concluded⟩ := execute_ok ran
  have tracked : ∀ outcome ∈ outcomes.map Prod.fst, outcome.Tracked := by
    obtain ⟨_, _, grouped⟩ := concluded.phases
    exact (Pool.outcomes_ok (Pool.length_slots_groupPhase engine _ _ _ _ _) grouped).tracked
  have executed := concluded.executed
  have pending := conclude_overlay concluded.drawn prior
  refine ⟨serial, outcomes, concluded, ?_⟩
  generalize outcomes.map Prod.fst = all at tracked executed pending
  have within := (acceptedOutcomes_sublist all).subset
  refine ⟨fun outcome hm => executed outcome (within hm), ?_, ?_, ?_⟩
  · intro a ha b hb distinct key changed
    have isolated := (acceptedOutcomes_isolated tracked).forall ha hb distinct
    have untouched := isolated.1 key changed
    exact ⟨untouched, fun changedToo => untouched (tracked b (within hb) key changedToo)⟩
  · intro order perm
    rw [pending, Overlay.merge_append, Overlay.merge_append, ofEffects_accepted_perm tracked perm]
  · intro key unchanged
    rw [pending, Overlay.merge_append, Overlay.read_extend, Overlay.read_ofEffects_eq_none,
      Option.none_or]
    intro effect hm changed
    obtain ⟨outcome, ho, he⟩ := List.mem_flatMap.mp hm
    exact unchanged outcome ho (GroupOutcome.mem_changed.mpr ⟨effect, he, changed⟩)

end Engine

namespace Sample

def dave : Address := .filled 20 4

def erin : Address := .filled 20 5

def payErin : Transaction := (Call.transfer erin 2).toTransaction dave 0

def payments : List Transaction := [payErin, payCarol, payBob, nextRound]

def funded : Snapshot := genesis.insert (.balance dave) (Bytes.ofWord 7)

/-- The payment to Carol is in the way of the one to Bob, and the one to Erin of neither. -/
def crowded : Engine :=
  { engine with grouper := fun _ _ => ⟨[nextRound], [[payBob], [payCarol], [payErin]], []⟩ }

theorem crowded_ok : ∃ result,
    crowded.execute payments header funded.view none .quiet [.step 1 0] = .ok result := by
  have valid : (crowded.partition header payments).fault? (payments.map Transaction.id) = none := by
    decide +kernel
  exact Engine.exists_result_contracts rfl (fun _ => rfl) (by decide) valid

theorem crowded_resolved {serial : List Effect} {outcomes : List (GroupOutcome × Bool)}
    {result : BlockResult}
    (concluded : Engine.Concluded crowded payments header funded.view none .quiet [.step 1 0]
      serial outcomes result) :
    (acceptedOutcomes (outcomes.map Prod.fst)).map GroupOutcome.group = [0, 2] ∧
      (rejectedOutcomes (outcomes.map Prod.fst)).map GroupOutcome.group = [1] := by
  obtain ⟨ran, speculative⟩ := concluded.contracts rfl (fun _ => rfl) (by decide)
  rw [speculative, ran]
  decide +kernel

end Sample

theorem Engine.sample_isolated :
    ∃ result serial outcomes first second,
      Sample.crowded.execute Sample.payments Sample.header Sample.funded.view none .quiet
        [.step 1 0] = .ok result ∧
      Concluded Sample.crowded Sample.payments Sample.header Sample.funded.view none .quiet
        [.step 1 0] serial outcomes result ∧
      acceptedOutcomes (outcomes.map Prod.fst) = [first, second] ∧
      (rejectedOutcomes (outcomes.map Prod.fst)).map GroupOutcome.group = [1] ∧
      (∀ key ∈ first.changed, key ∉ second.accessed ∧ key ∉ second.changed) ∧
      (∀ key ∈ second.changed, key ∉ first.accessed ∧ key ∉ first.changed) ∧
      Overlay.merge none (serial ++
        ((resolve (outcomes.map Prod.fst)).accepted.map GroupOutcome.effects).reverse.flatten) =
          result.overlay none := by
  obtain ⟨result, ran⟩ := Sample.crowded_ok
  obtain ⟨serial, outcomes, concluded, _, isolated, ordered, _⟩ :=
    execute_isolated _ _ _ _ _ _ _ result ran
  obtain ⟨accepted, rejected⟩ := Sample.crowded_resolved concluded
  obtain ⟨first, later, split, zero, accepted⟩ := List.map_eq_cons_iff.mp accepted
  obtain ⟨second, last, rfl, two, accepted⟩ := List.map_eq_cons_iff.mp accepted
  cases List.map_eq_nil_iff.mp accepted
  have distinct : first ≠ second := fun same => by simp [same, two] at zero
  rw [split] at isolated
  refine ⟨result, serial, outcomes, first, second, ran, concluded, split, rejected, ?_, ?_, ?_⟩
  · exact isolated first (by simp) second (by simp) distinct
  · exact isolated second (by simp) first (by simp) distinct.symm
  · exact ordered _ (List.reverse_perm _)

end GroupedLedger
