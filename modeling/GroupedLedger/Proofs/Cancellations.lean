import GroupedLedger.Proofs.ContractBlocks
import GroupedLedger.Proofs.Traces
import GroupedLedger.Proofs.Verdicts
import Mathlib.Data.List.Nodup

namespace GroupedLedger

namespace GroupOutcome

/-- The group touched no key and changed none. -/
def Untouched (outcome : GroupOutcome) : Prop :=
  ∀ key, key ∉ outcome.accessed ∧ key ∉ outcome.changed

/-- What comes of a group that was cancelled. -/
def cancelled (group : Nat) (transactions : List Transaction) : GroupOutcome :=
  ⟨group, transactions.map fun tx => Effect.failed tx.id Effect.executionCancelled⟩

theorem mem_cancelled {group : Nat} {transactions : List Transaction} {effect : Effect}
    (mem : effect ∈ (cancelled group transactions).effects) :
    effect.status = .failed ∧ effect.receipt.status = .failed ∧
      effect.receipt.error = some "execution cancelled" ∧
        effect.writes = ∅ ∧ effect.deletes = ∅ ∧ effect.accesses = ∅ := by
  obtain ⟨tx, _, rfl⟩ := List.mem_map.mp mem
  exact ⟨rfl, rfl, rfl, rfl, rfl, rfl⟩

theorem untouched_cancelled (group : Nat) (transactions : List Transaction) :
    (cancelled group transactions).Untouched := by
  intro key
  rw [mem_accessed, mem_changed]
  constructor
  · rintro ⟨effect, hm, touched⟩
    obtain ⟨_, _, _, _, _, accesses⟩ := mem_cancelled hm
    simp [accesses] at touched
  · rintro ⟨effect, hm, changed⟩
    obtain ⟨_, _, _, writes, deletes, _⟩ := mem_cancelled hm
    simp [Effect.mem_changedKeys, writes, deletes] at changed

theorem Untouched.strip {outcome : GroupOutcome} (h : outcome.Untouched) (keys : KeySet) :
    outcome.strip keys = outcome := by
  have same : outcome.effects.map (Effect.strip · keys) = outcome.effects := by
    refine (List.map_congr_left fun effect hm => ?_).trans (List.map_id _)
    have accesses : (effect.strip keys).accesses = effect.accesses := by
      apply Std.ExtTreeMap.ext_getElem?
      intro key
      have absent : key ∉ effect.accesses :=
        fun touched => (h key).1 (mem_accessed.mpr ⟨effect, hm, touched⟩)
      rw [Effect.getElem?_accesses_strip, Std.ExtTreeMap.getElem?_eq_none absent]
      rfl
    exact congrArg (fun accesses => { effect with accesses }) accesses
  exact congrArg (GroupOutcome.mk outcome.group) same

theorem Untouched.ofEffects {outcome : GroupOutcome} (h : outcome.Untouched) :
    Overlay.ofEffects outcome.effects = .empty := by
  apply Overlay.ext_read
  intro key
  rw [Overlay.read_empty]
  apply Overlay.read_ofEffects_eq_none
  exact fun effect hm changed => (h key).2 (mem_changed.mpr ⟨effect, hm, changed⟩)

end GroupOutcome

section Omission

variable {outcomes : List GroupOutcome} {outcome : GroupOutcome} {idle : GroupOutcome → Bool}

namespace Resolver

/-- The pass as if some of the groups it has accepted had not been there. -/
def without (idle : GroupOutcome → Bool) (resolver : Resolver) : Resolver :=
  { resolver with accepted := resolver.accepted.filter fun outcome => !idle outcome }

/-- A group that touched nothing is accepted and claims nothing. -/
theorem take_untouched (resolver : Resolver) (untouched : outcome.Untouched) :
    resolver.take outcome = { resolver with accepted := resolver.accepted ++ [outcome] } := by
  have admitted : resolver.admits outcome = true :=
    admits_iff.mpr fun key touched => absurd touched (untouched key).1
  have claimed : resolver.claimed ∪ resolver.relevant outcome = resolver.claimed := by
    apply Std.ExtTreeSet.ext_mem
    intro key
    simp only [Std.ExtTreeSet.mem_union_iff, mem_relevant, (untouched key).1, false_and, or_false]
  rw [take, if_pos admitted, claimed]

theorem take_without (resolver : Resolver) (kept : idle outcome = false) :
    (resolver.without idle).take outcome = (resolver.take outcome).without idle := by
  change (if resolver.admits outcome then _ else _) = _
  unfold take
  split
  · simp [without, relevant, kept]
  · rfl

/-- The pass comes to the same without groups that touched nothing. -/
theorem foldl_without (untouched : ∀ outcome ∈ outcomes, idle outcome = true → outcome.Untouched)
    (resolver : Resolver) :
    (outcomes.filter fun outcome => !idle outcome).foldl take (resolver.without idle) =
      (outcomes.foldl take resolver).without idle := by
  induction outcomes generalizing resolver with
  | nil => rfl
  | cons first rest ih =>
    have later := ih fun outcome hm => untouched outcome (by simp [hm])
    rw [List.foldl_cons, ← later]
    cases out : idle first with
    | true =>
      rw [take_untouched resolver (untouched first (by simp) out)]
      simp [without, out]
    | false =>
      rw [List.filter_cons_of_pos (by simp [out]), List.foldl_cons, take_without resolver out]

theorem filter_accepted_take (resolver : Resolver) (kept : idle outcome = false) :
    (resolver.take outcome).accepted.filter idle = resolver.accepted.filter idle := by
  unfold take
  split
  · simp [kept]
  · rfl

theorem filter_accepted_foldl
    (untouched : ∀ outcome ∈ outcomes, idle outcome = true → outcome.Untouched)
    (resolver : Resolver) :
    (outcomes.foldl take resolver).accepted.filter idle =
      resolver.accepted.filter idle ++ outcomes.filter idle := by
  induction outcomes generalizing resolver with
  | nil => simp
  | cons first rest ih =>
    rw [List.foldl_cons, ih fun outcome hm => untouched outcome (by simp [hm])]
    cases out : idle first with
    | true =>
      rw [take_untouched resolver (untouched first (by simp) out)]
      simp [out]
    | false => rw [filter_accepted_take resolver out, List.filter_cons_of_neg (by simp [out])]

end Resolver

theorem readOnlyKeys_without
    (untouched : ∀ outcome ∈ outcomes, idle outcome = true → outcome.Untouched) :
    readOnlyKeys (outcomes.filter fun outcome => !idle outcome) = readOnlyKeys outcomes := by
  apply Std.ExtTreeSet.ext_mem
  intro key
  have kept : ∀ outcome ∈ outcomes, key ∈ outcome.accessed ∨ key ∈ outcome.changed →
      outcome ∈ outcomes.filter fun outcome => !idle outcome := by
    intro outcome hm noted
    refine List.mem_filter.mpr ⟨hm, ?_⟩
    cases out : idle outcome with
    | false => rfl
    | true => exact absurd noted (not_or.mpr (untouched outcome hm out key))
  rw [mem_readOnlyKeys, mem_readOnlyKeys]
  constructor
  · rintro ⟨⟨outcome, hm, touched⟩, unchanged⟩
    refine ⟨⟨outcome, (List.mem_filter.mp hm).1, touched⟩, fun other ho changed => ?_⟩
    exact unchanged other (kept other ho (.inr changed)) changed
  · rintro ⟨⟨outcome, hm, touched⟩, unchanged⟩
    exact ⟨⟨outcome, kept outcome hm (.inl touched), touched⟩,
      fun other ho => unchanged other (List.mem_filter.mp ho).1⟩

/-- What becomes of some groups, beside others that touched nothing and without them. -/
theorem resolved_without
    (untouched : ∀ outcome ∈ outcomes, idle outcome = true → outcome.Untouched) :
    acceptedOutcomes (outcomes.filter fun outcome => !idle outcome) =
        (acceptedOutcomes outcomes).filter (fun outcome => !idle outcome) ∧
      rejectedOutcomes (outcomes.filter fun outcome => !idle outcome) = rejectedOutcomes outcomes ∧
      (acceptedOutcomes outcomes).filter idle = outcomes.filter idle := by
  have pass := Resolver.foldl_without untouched (.start (readOnlyKeys outcomes))
  have accepted := congrArg Resolver.accepted pass
  have rejected := congrArg Resolver.rejected pass
  have idlers := Resolver.filter_accepted_foldl untouched (.start (readOnlyKeys outcomes))
  simp only [acceptedOutcomes, rejectedOutcomes, readOnlyKeys_without untouched]
  exact ⟨accepted, rejected, idlers⟩

theorem ofEffects_filter
    (untouched : ∀ outcome ∈ outcomes, idle outcome = true → outcome.Untouched) :
    Overlay.ofEffects ((outcomes.filter fun outcome => !idle outcome).flatMap
        GroupOutcome.effects) =
      Overlay.ofEffects (outcomes.flatMap GroupOutcome.effects) := by
  induction outcomes with
  | nil => rfl
  | cons first rest ih =>
    have later := ih fun outcome hm => untouched outcome (by simp [hm])
    cases out : idle first with
    | true =>
      have nothing := (untouched first (by simp) out).ofEffects
      rw [List.filter_cons_of_neg (by simp [out]), List.flatMap_cons, Overlay.ofEffects_append,
        nothing, Overlay.empty_extend, later]
    | false =>
      rw [List.filter_cons_of_pos (by simp [out]), List.flatMap_cons, List.flatMap_cons,
        Overlay.ofEffects_append, Overlay.ofEffects_append, later]

end Omission

def cancelledOutcomes (outcomes : List (GroupOutcome × Bool)) : List GroupOutcome :=
  (outcomes.filter Prod.snd).map Prod.fst

def completedOutcomes (outcomes : List (GroupOutcome × Bool)) : List GroupOutcome :=
  (outcomes.filter fun outcome => !outcome.2).map Prod.fst

/-- Whether the group of an outcome is one of the cancelled ones. -/
def isCancelled (outcomes : List (GroupOutcome × Bool)) (outcome : GroupOutcome) : Bool :=
  (cancelledOutcomes outcomes).any fun other => other.group == outcome.group

section Cancelled

variable {outcomes : List (GroupOutcome × Bool)}

theorem isCancelled_eq (distinct : (outcomes.map fun outcome => outcome.1.group).Nodup)
    {outcome : GroupOutcome × Bool} (mem : outcome ∈ outcomes) :
    isCancelled outcomes outcome.1 = outcome.2 := by
  rw [Bool.eq_iff_iff, isCancelled, List.any_eq_true]
  constructor
  · rintro ⟨_, hm, same⟩
    obtain ⟨other, ho, rfl⟩ := List.mem_map.mp hm
    obtain ⟨listed, cancelled⟩ := List.mem_filter.mp ho
    have he : other = outcome :=
      List.inj_on_of_nodup_map distinct listed mem (beq_iff_eq.mp same)
    exact he ▸ cancelled
  · intro cancelled
    refine ⟨outcome.1, ?_, beq_self_eq_true _⟩
    exact List.mem_map_of_mem (List.mem_filter.mpr ⟨mem, cancelled⟩)

theorem filter_isCancelled (distinct : (outcomes.map fun outcome => outcome.1.group).Nodup) :
    (outcomes.map Prod.fst).filter (isCancelled outcomes) = cancelledOutcomes outcomes ∧
      (outcomes.map Prod.fst).filter (fun outcome => !isCancelled outcomes outcome) =
        completedOutcomes outcomes := by
  rw [List.filter_map, List.filter_map]
  constructor
  · exact congrArg _ (List.filter_congr fun outcome hm => isCancelled_eq distinct hm)
  · refine congrArg _ (List.filter_congr fun outcome hm => ?_)
    exact congrArg _ (isCancelled_eq distinct hm)

/-- What a resolution comes to beside the one of the groups that were not cancelled. -/
structure Resolution.Beside (resolution others : Resolution)
    (outcomes : List (GroupOutcome × Bool)) : Prop where
  accepted : (resolution.accepted.filter fun outcome => !isCancelled outcomes outcome) =
    others.accepted
  rejected : resolution.rejected = others.rejected
  readOnly : resolution.readOnly = others.readOnly
  cancelled : resolution.accepted.filter (isCancelled outcomes) = cancelledOutcomes outcomes

theorem resolve_beside (distinct : (outcomes.map fun outcome => outcome.1.group).Nodup)
    (untouched : ∀ outcome ∈ cancelledOutcomes outcomes, outcome.Untouched) :
    (resolve (outcomes.map Prod.fst)).Beside (resolve (completedOutcomes outcomes)) outcomes := by
  obtain ⟨cancelled, completed⟩ := filter_isCancelled distinct
  have idle : ∀ outcome ∈ outcomes.map Prod.fst, isCancelled outcomes outcome = true →
      outcome.Untouched := by
    intro outcome hm out
    exact untouched outcome (cancelled ▸ List.mem_filter.mpr ⟨hm, out⟩)
  obtain ⟨accepted, rejected, idlers⟩ := resolved_without idle
  have readOnly := readOnlyKeys_without idle
  rw [completed] at accepted rejected readOnly
  rw [resolve_eq, resolve_eq, accepted, rejected, readOnly]
  -- Stripping leaves a group in its place, and a group that touched nothing as it is.
  refine ⟨List.filter_map, rfl, rfl, ?_⟩
  rw [List.filter_map]
  change ((acceptedOutcomes (outcomes.map Prod.fst)).filter (isCancelled outcomes)).map _ = _
  rw [idlers, cancelled]
  refine (List.map_congr_left fun outcome hm => ?_).trans (List.map_id _)
  exact (untouched outcome hm).strip _

theorem ofEffects_beside (distinct : (outcomes.map fun outcome => outcome.1.group).Nodup)
    (untouched : ∀ outcome ∈ cancelledOutcomes outcomes, outcome.Untouched) :
    Overlay.ofEffects (resolve (outcomes.map Prod.fst)).acceptedEffects =
      Overlay.ofEffects (resolve (completedOutcomes outcomes)).acceptedEffects := by
  have beside := resolve_beside distinct untouched
  rw [Resolution.acceptedEffects, Resolution.acceptedEffects, ← beside.accepted,
    ofEffects_filter fun outcome hm out => untouched outcome ?_]
  exact beside.cancelled ▸ List.mem_filter.mpr ⟨hm, out⟩

end Cancelled

namespace Pool

/-- How a group of a pool was settled: all of its transactions have the executor's effects, or none
has. It is cancelled in the second case, and says so. -/
inductive Settled (job : Nat → Token → Answer × Token) (pool : Pool) (group : Nat)
    (transactions : List Transaction) : GroupOutcome × Bool → Prop where
  /-- The executor was called once, and answered with an effect for each transaction. -/
  | answered {effects : List Effect} (once : pool.calls.count group = 1)
      (answer : ∃ token, (job group token).1 = .done (.ok effects))
      (complete : effects.map Effect.id = transactions.map Transaction.id) :
      Settled job pool group transactions (⟨group, effects⟩, false)
  /-- The executor was called once, and answered that it was cancelled. -/
  | cancelled (once : pool.calls.count group = 1)
      (answer : ∃ token, (job group token).1 = .done (.error .cancelled)) :
      Settled job pool group transactions (.cancelled group transactions, true)
  /-- The worker that had taken the group saw the signal, and the executor was never called. -/
  | skipped (signalled : pool.signalled = true) (never : group ∉ pool.calls) :
      Settled job pool group transactions (.cancelled group transactions, true)

variable {job : Nat → Token → Answer × Token} {pool : Pool} {group : Nat}
  {transactions : List Transaction} {outcome : GroupOutcome × Bool}
  {groups : List (List Transaction)} {outcomes : List (GroupOutcome × Bool)}

theorem hasCrashed_of_outcomes (ok : pool.outcomes groups = .ok outcomes) :
    pool.hasCrashed = false := by
  unfold Pool.outcomes at ok
  split at ok
  · cases ok
  · rename_i up
    exact Bool.eq_false_iff.mpr up

theorem settled_of_came {slot : Option Run}
    (came : ∀ run, slot = some run → Came job pool group run)
    (ok : slotOutcome group transactions slot = .ok outcome) :
    Settled job pool group transactions outcome := by
  rcases slotOutcome_cases ok with ⟨effects, stored, fine, rfl⟩ | ⟨stored, rfl⟩
  · cases came _ stored with
    | called once answer =>
      exact .answered once answer (effectsFault?_eq_none_iff.mp fine).1
  · cases came _ stored with
    | called once answer => exact .cancelled once answer
    | skipped never signalled => exact .skipped signalled never

theorem Settled.eq_cancelled (settled : Settled job pool group transactions outcome)
    (cancelled : outcome.2 = true) : outcome.1 = .cancelled group transactions := by
  cases settled with
  | answered => cases cancelled
  | cancelled => rfl
  | skipped => rfl

end Pool

namespace Engine

variable {engine : Engine} {transactions : List Transaction} {header : Header} {base : StateView}
  {prior : Option Overlay} {token : Token} {events : List Event}

/-- The groups of a pool in which no worker went down are settled, whatever the interleaving and
whenever the signal came up. -/
theorem settled_groupPhase {groups : List (List Transaction)} {overlay : Overlay}
    {signalled : Bool} {outcomes : List (GroupOutcome × Bool)}
    (ok : (engine.groupPhase groups base overlay signalled events).outcomes groups =
      .ok outcomes) :
    List.Forall₂ (fun entry => Pool.Settled (engine.job groups base overlay)
        (engine.groupPhase groups base overlay signalled events) entry.2 entry.1)
      groups.zipIdx outcomes := by
  have traced : Pool.Traced (engine.job groups base overlay) (groups.map List.length).length
      (engine.groupPhase groups base overlay signalled events) :=
    Pool.traced_run _ _ _ events (Pool.hasCrashed_of_outcomes ok)
  have slots := Pool.length_slots_groupPhase engine groups base overlay signalled events
  obtain ⟨count, each⟩ := Pool.outcomes_each slots ok
  refine List.forall₂_iff_get.mpr ⟨by rw [List.length_zipIdx, count], fun group hz ho => ?_⟩
  have hg : group < groups.length := count ▸ ho
  have drawn := each group hg (slots ▸ hg) ho
  simp only [List.get_eq_getElem, List.getElem_zipIdx, Nat.zero_add]
  refine Pool.settled_of_came (fun run stored => traced.settled group run ?_) drawn
  rw [List.getElem?_eq_getElem (slots ▸ hg), stored]

/-- The signal came up before the groups: it was up at first, or the executor said so of the serial
transactions. -/
def Interrupted (engine : Engine) (transactions : List Transaction) (header : Header)
    (base : StateView) (prior : Option Overlay) (token : Token) : Prop :=
  let partition := engine.partition header transactions
  token.poll.1 = true ∨
    partition.fault? (transactions.map Transaction.id) = none ∧ partition.serial ≠ [] ∧
      (engine.executor.execute .serial partition.serial base (prior.getD .empty) token.poll.2).1 =
        .done (.error .cancelled)

/-- The serial transactions are cancelled by the executor alone, and never without any. -/
theorem serialPhase_eq_cancelled {batch : List Transaction} :
    (engine.serialPhase batch base prior token).1 = .error .cancelled ↔
      batch ≠ [] ∧ (engine.executor.execute .serial batch base (prior.getD .empty) token).1 =
        .done (.error .cancelled) := by
  unfold serialPhase
  split
  · rename_i none
    simp [List.isEmpty_iff.mp none]
  · rename_i some
    rw [List.isEmpty_iff] at some
    split
    · rename_i answered
      simp [answered]
    · rename_i answered
      simp [answered, some]
    · rename_i answered
      simp [answered]
    · rename_i answered
      simp only [answered, checkEffects]
      split <;> simp

theorem outcomes_ne_cancelled (pool : Pool) (groups : List (List Transaction)) :
    pool.outcomes groups ≠ .error .cancelled := by
  intro failed
  rcases Pool.outcomes_error failed with he | ⟨_, _, he⟩ | ⟨_, _, he⟩ <;> cases he

/-- Once the groups are on their way the signal does not fail the block. -/
theorem Entered.execute_ne_cancelled {serial : List Effect} {left : Token}
    (h : engine.Entered transactions header base prior token serial left) (events : List Event) :
    engine.execute transactions header base prior token events ≠ .error .cancelled := by
  rw [h.execute]
  cases drawn : (engine.groupsPool transactions header base prior serial left events).outcomes
      (engine.partition header transactions).groups with
  | error error =>
    rintro ⟨⟩
    exact outcomes_ne_cancelled _ _ drawn
  | ok outcomes =>
    change conclude _ _ _ _ ≠ _
    rw [conclude_eq]
    dsimp only
    split <;> exact nofun

/-- A block is cancelled as a whole exactly if the signal came up before its groups. -/
theorem execute_eq_cancelled_iff :
    engine.execute transactions header base prior token events = .error .cancelled ↔
      engine.Interrupted transactions header base prior token := by
  rcases hp : token.poll with ⟨up, looked⟩
  cases up with
  | true => simp [execute, run, Interrupted, hp]
  | false =>
    cases valid : (engine.partition header transactions).fault?
        (transactions.map Transaction.id) with
    | some fault =>
      rw [execute_of_down hp, valid]
      simp [Interrupted, hp, valid]
    | none =>
      have cancelled : (engine.serialPhase (engine.partition header transactions).serial base prior
          looked).1 = .error .cancelled ↔ _ := serialPhase_eq_cancelled
      rcases serially : engine.serialPhase (engine.partition header transactions).serial base prior
        looked with ⟨answer, left⟩
      rw [serially] at cancelled
      simp only [Interrupted, hp, valid, Bool.false_eq_true, false_or, true_and, ← cancelled]
      cases answer with
      | error error =>
        rw [execute_of_down hp, valid]
        simp only [serially]
        rw [Except.error.injEq, Except.error.injEq]
      | ok serial =>
        have entered : engine.Entered transactions header base prior token serial left :=
          ⟨by rw [hp], valid, by rw [hp]; exact serially⟩
        constructor
        · exact fun failed => absurd failed (entered.execute_ne_cancelled events)
        · intro failed
          cases failed

theorem calls_of_interrupted
    (interrupted : engine.Interrupted transactions header base prior token) :
    (engine.run transactions header base prior token events).calls =
      if token.poll.1 then [] else [(engine.partition header transactions).serial] := by
  rcases hp : token.poll with ⟨up, looked⟩
  cases up with
  | true => simp [run, hp]
  | false =>
    simp only [Interrupted, hp, Bool.false_eq_true, false_or] at interrupted
    obtain ⟨valid, some, answered⟩ := interrupted
    have serially := serialPhase_eq_cancelled.mpr ⟨some, answered⟩
    rw [partition] at valid some serially
    rcases hs : engine.serialPhase (engine.grouper (.ofHeader header) transactions).serial base prior
      looked with ⟨answer, left⟩
    rw [hs] at serially
    subst serially
    simp [run, hp, valid, hs, some, partition]

theorem cancelledGroups_of_conclude {partition : Partition} {expected : Nat}
    {serial : List Effect} {outcomes : List (GroupOutcome × Bool)} {result : BlockResult}
    (drawn : conclude partition expected serial outcomes = .ok result) :
    result.cancelledGroups = (cancelledOutcomes outcomes).length := by
  rw [cancelledOutcomes, List.length_map, ← List.countP_eq_length_filter]
  simp only [conclude_eq] at drawn
  split at drawn
  · cases drawn
  · cases drawn
    rfl

/-- What comes of a cancelled group follows from its transactions alone. -/
theorem fates_of_settled {job : Nat → Token → Answer × Token} {pool : Pool}
    {groups : List (List Transaction)} {outcomes : List (GroupOutcome × Bool)}
    (settled : List.Forall₂ (fun entry => Pool.Settled job pool entry.2 entry.1) groups.zipIdx outcomes) :
    ∀ outcome ∈ cancelledOutcomes outcomes,
      ∃ group transactions, outcome = .cancelled group transactions := by
  intro outcome hm
  obtain ⟨pair, hp, rfl⟩ := List.mem_map.mp hm
  obtain ⟨listed, cancelled⟩ := List.mem_filter.mp hp
  obtain ⟨place, inside, rfl⟩ := List.mem_iff_getElem.mp listed
  obtain ⟨same, each⟩ := List.forall₂_iff_get.mp settled
  exact ⟨_, _, (each place (same ▸ inside) inside).eq_cancelled cancelled⟩

/-- The signal takes groups as a whole, whenever it comes up and however the workers are
interleaved. A block that has a result has for each group the executor's answer to all of its
transactions, or the group was cancelled and each of its transactions failed untouched. All
cancelled groups are accepted, and the others are accepted or rejected, listed and left pending as
they are without them. If the signal came up before the groups, there is no result, and no group is
executed. -/
theorem execute_cancels_whole_groups (engine : Engine) (transactions : List Transaction)
    (header : Header) (base : StateView) (prior : Option Overlay) (token : Token)
    (events : List Event) :
    let partition := engine.partition header transactions
    (engine.execute transactions header base prior token events = .error .cancelled ↔
      engine.Interrupted transactions header base prior token) ∧
    (engine.Interrupted transactions header base prior token →
      (engine.run transactions header base prior token events).calls =
        if token.poll.1 then [] else [partition.serial]) ∧
    ∀ result, engine.execute transactions header base prior token events = .ok result →
      ∃ serial left outcomes,
        engine.Entered transactions header base prior token serial left ∧
        List.Forall₂ (fun entry => Pool.Settled
            (engine.job partition.groups base (Overlay.merge prior serial))
            (engine.groupsPool transactions header base prior serial left events) entry.2 entry.1)
          partition.groups.zipIdx outcomes ∧
        (∀ outcome ∈ cancelledOutcomes outcomes, ∀ effect ∈ outcome.effects,
          effect.status = .failed ∧ effect.receipt.status = .failed ∧
            effect.receipt.error = some "execution cancelled" ∧
              effect.writes = ∅ ∧ effect.deletes = ∅ ∧ effect.accesses = ∅) ∧
        let resolution := resolve (outcomes.map Prod.fst)
        let others := resolve (completedOutcomes outcomes)
        (resolution.accepted ++ resolution.rejected).Perm
          (outcomes.map fun outcome => outcome.1.strip resolution.readOnly) ∧
        resolution.Beside others outcomes ∧
        result.effects = serial ++ (resolution.acceptedEffects ++
          ((partition.unroutable.map fun tx => Effect.failed tx.id Effect.invalidContract) ++
            others.rejectedEffects.map Effect.demote)) ∧
        result.accepted = resolution.acceptedEffects.length ∧
        result.conflictingGroups = others.rejected.length ∧
        result.cancelledGroups = (cancelledOutcomes outcomes).length ∧
        result.overlay prior = Overlay.merge prior (serial ++ others.acceptedEffects) := by
  refine ⟨execute_eq_cancelled_iff, calls_of_interrupted, fun result ran => ?_⟩
  obtain ⟨serial, left, outcomes, entered, grouped, concluded⟩ := entered_of_execute ran
  have settled := settled_groupPhase grouped
  have fates := fates_of_settled settled
  have untouched : ∀ outcome ∈ cancelledOutcomes outcomes, outcome.Untouched := by
    intro outcome hm
    obtain ⟨group, members, rfl⟩ := fates outcome hm
    exact GroupOutcome.untouched_cancelled group members
  have slots := Pool.length_slots_groupPhase engine (engine.partition header transactions).groups
    base (Overlay.merge prior serial) left.raised events
  have distinct : (outcomes.map fun outcome => outcome.1.group).Nodup := by
    have placed := (Pool.outcomes_ok slots grouped).placed
    rw [List.map_map] at placed
    exact placed ▸ List.nodup_range
  have beside := resolve_beside distinct untouched
  obtain ⟨effects, _, accepted, _, conflicting⟩ := conclude_ok concluded.drawn
  refine ⟨serial, left, outcomes, entered, settled, ?_, ?_, beside, ?_, accepted, ?_, ?_, ?_⟩
  · intro outcome hm effect
    obtain ⟨group, members, rfl⟩ := fates outcome hm
    exact GroupOutcome.mem_cancelled
  · have split := (accepted_append_rejected (outcomes.map Prod.fst)).map
      (GroupOutcome.strip (readOnlyKeys (outcomes.map Prod.fst)))
    rw [resolve_eq]
    rwa [List.map_append, List.map_map] at split
  · rw [effects, Resolution.rejectedEffects, beside.rejected]
    rfl
  · rw [conflicting, beside.rejected]
  · exact cancelledGroups_of_conclude concluded.drawn
  · rw [conclude_overlay concluded.drawn, Overlay.merge_append, Overlay.merge_append,
      ← ofEffects_acceptedEffects, ofEffects_beside distinct untouched]

/-- The signal comes up while one worker is at work on the first payment, before any worker has
taken up the second one; or it is up from the start. -/
theorem sample_cancels_whole_groups :
    let events := [Event.step 0 0, .step 0 0, .step 0 0, .step 0 0, .signal]
    (∃ result serial outcomes,
      Sample.engine.execute Sample.block Sample.header Sample.genesis.view none .quiet events =
        .ok result ∧
      (cancelledOutcomes outcomes).length = 1 ∧
      (resolve (outcomes.map Prod.fst)).Beside (resolve (completedOutcomes outcomes)) outcomes ∧
      result.overlay none =
        Overlay.merge none (serial ++ (resolve (completedOutcomes outcomes)).acceptedEffects)) ∧
    Sample.engine.execute Sample.block Sample.header Sample.genesis.view none .signalled events =
      .error .cancelled ∧
    (Sample.engine.run Sample.block Sample.header Sample.genesis.view none .signalled events).calls =
      [] := by
  intro events
  have calm : ∀ key, Sample.genesis.view.trips key = false := fun _ => rfl
  have entered : Sample.engine.Entered Sample.block Sample.header Sample.genesis.view none .quiet
      (Vm.effects (Overlay.empty.onto Sample.genesis.view.get?) [Sample.nextRound]) .quiet :=
    ⟨rfl, Sample.partition_fault, serialPhase_contracts rfl calm [Sample.nextRound]⟩
  have sizes : (Sample.engine.partition Sample.header Sample.block).groups.map List.length =
      [1, 1] := rfl
  have order : WorkQueue.order [1, 1] = [0, 1] := by simp [WorkQueue.order, List.mergeSort]
  have counted : (Sample.engine.execute Sample.block Sample.header Sample.genesis.view none .quiet
      events).map BlockResult.cancelledGroups = .ok 1 := by
    rw [entered.execute, groupsPool, groupPhase, Pool.start, WorkQueue.ofSizes, sizes, order]
    decide +kernel
  have raised : Sample.engine.Interrupted Sample.block Sample.header Sample.genesis.view none
      .signalled := .inl rfl
  obtain ⟨cancelled, calls, _⟩ := execute_cancels_whole_groups Sample.engine Sample.block
    Sample.header Sample.genesis.view none .signalled events
  refine ⟨?_, cancelled.mpr raised, calls raised⟩
  cases ran : Sample.engine.execute Sample.block Sample.header Sample.genesis.view none .quiet
      events with
  | error error =>
    rw [ran] at counted
    cases counted
  | ok result =>
    rw [ran] at counted
    obtain ⟨serial, left, outcomes, _, _, _, _, beside, _, _, _, cancelled, pending⟩ :=
      (execute_cancels_whole_groups _ _ _ _ _ _ _).2.2 result ran
    have one : result.cancelledGroups = 1 := Except.ok.inj counted
    exact ⟨result, serial, outcomes, rfl, cancelled.symm.trans one, beside, pending⟩

end Engine

end GroupedLedger
