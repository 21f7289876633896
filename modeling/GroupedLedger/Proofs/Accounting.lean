import GroupedLedger.Proofs.Blocks
import GroupedLedger.Proofs.Checks
import GroupedLedger.Proofs.Overlays
import GroupedLedger.Proofs.Resolutions
import GroupedLedger.Proofs.Workers
import Mathlib.Data.List.Forall2

namespace GroupedLedger

theorem forall₂_of_mapM_ok {α β ε : Type} {f : α → Except ε β} {xs : List α} {ys : List β}
    (mapped : xs.mapM f = .ok ys) : List.Forall₂ (fun x y => f x = .ok y) xs ys := by
  induction xs generalizing ys with
  | nil =>
    cases mapped
    exact .nil
  | cons x xs ih =>
    rw [List.mapM_cons] at mapped
    cases hx : f x with
    | error error =>
      rw [hx] at mapped
      cases mapped
    | ok y =>
      cases hr : xs.mapM f with
      | error error =>
        rw [hx, hr] at mapped
        cases mapped
      | ok rest =>
        rw [hx, hr] at mapped
        cases mapped
        exact .cons hx (ih hr)

theorem exists_of_mapM_error {α β ε : Type} {f : α → Except ε β} {xs : List α} {error : ε}
    (failed : xs.mapM f = .error error) : ∃ x ∈ xs, f x = .error error := by
  induction xs with
  | nil => cases failed
  | cons x xs ih =>
    rw [List.mapM_cons] at failed
    cases hx : f x with
    | error other =>
      rw [hx] at failed
      cases failed
      exact ⟨x, by simp, hx⟩
    | ok y =>
      cases hr : xs.mapM f with
      | error other =>
        rw [hx, hr] at failed
        cases failed
        obtain ⟨later, hm, hl⟩ := ih hr
        exact ⟨later, by simp [hm], hl⟩
      | ok rest =>
        rw [hx, hr] at failed
        cases failed

/-- The first part that fails decides how all of them together do. -/
theorem mapM_eq_error {α β ε : Type} {f : α → Except ε β} {xs : List α} {i : Nat} {x : α}
    {error : ε} (here : xs[i]? = some x)
    (before : ∀ j < i, ∀ y, xs[j]? = some y → ∃ z, f y = .ok z) (failed : f x = .error error) :
    xs.mapM f = .error error := by
  induction xs generalizing i with
  | nil => simp at here
  | cons y ys ih =>
    rw [List.mapM_cons]
    cases i with
    | zero =>
      have he : y = x := by simpa using here
      rw [he, failed]
      rfl
    | succ i =>
      obtain ⟨z, hz⟩ := before 0 (by omega) y rfl
      have later := ih (by simpa using here) fun j hj other ho =>
        before (j + 1) (by omega) other (by simpa using ho)
      rw [hz, later]
      rfl

namespace Partition

/-- The transactions of some groups, in order. -/
def members (partition : Partition) (groups : List Nat) : List Transaction :=
  groups.flatMap (partition.groups.getD · [])

theorem members_range (partition : Partition) :
    partition.members (List.range partition.groups.length) = partition.groups.flatten := by
  have hm : (List.range partition.groups.length).map (partition.groups.getD · []) =
      partition.groups := by
    apply List.ext_getElem
    · simp
    · intro group _ hl
      simp [List.getD_eq_getElem?_getD, List.getElem?_eq_getElem hl]
  rw [members, List.flatMap_def, hm]

theorem members_perm (partition : Partition) {accepted rejected : List Nat}
    (split : (accepted ++ rejected).Perm (List.range partition.groups.length)) :
    (partition.members accepted ++ partition.members rejected).Perm partition.groups.flatten := by
  rw [← members_range, members, members, ← List.flatMap_append]
  exact split.flatMap_right _

theorem listed_perm (partition : Partition) {accepted rejected : List Nat}
    (split : (accepted ++ rejected).Perm (List.range partition.groups.length)) :
    (partition.serial ++ (partition.members accepted ++ (partition.unroutable ++
      partition.members rejected))).Perm partition.toList := by
  apply List.Perm.append_left
  have hs := (partition.members_perm split).append_right partition.unroutable
  rw [List.append_assoc] at hs
  exact (List.perm_append_comm.append_left _).trans hs

end Partition

theorem checkEffects_ok {phase : String} {transactions : List Transaction}
    {effects checked : List Effect} (ok : checkEffects phase transactions effects = .ok checked) :
    checked = effects ∧ effectsFault? transactions checked = none := by
  unfold checkEffects at ok
  split at ok
  · cases ok
  · rename_i fine
    cases ok
    exact ⟨rfl, fine⟩

/-- The outcome of a group is drawn from effects that fit the group, or the group was cancelled. -/
theorem slotOutcome_cases {group : Nat} {transactions : List Transaction} {slot : Option Run}
    {outcome : GroupOutcome × Bool} (ok : slotOutcome group transactions slot = .ok outcome) :
    (∃ effects, slot = some (.ok effects) ∧ effectsFault? transactions effects = none ∧
        outcome = (⟨group, effects⟩, false)) ∨
      slot = some (.error .cancelled) ∧ outcome = (⟨group, transactions.map fun tx =>
        Effect.failed tx.id Effect.executionCancelled⟩, true) := by
  unfold slotOutcome at ok
  split at ok
  · rename_i effects
    cases hc : checkEffects ("group " ++ toString group) transactions effects with
    | error error =>
      rw [hc] at ok
      cases ok
    | ok checked =>
      rw [hc] at ok
      cases ok
      obtain ⟨rfl, fine⟩ := checkEffects_ok hc
      exact .inl ⟨_, rfl, fine, rfl⟩
  · cases ok
    exact .inr ⟨rfl, rfl⟩
  · cases ok
  · cases ok

theorem effectsFault?_failed (transactions : List Transaction) (error : String) :
    effectsFault? transactions (transactions.map fun tx => Effect.failed tx.id error) = none := by
  refine effectsFault?_eq_none_iff.mpr ⟨?_, ?_⟩
  · rw [List.map_map]
    rfl
  · intro effect hm
    obtain ⟨tx, _, rfl⟩ := List.mem_map.mp hm
    exact Effect.isConsistent_failed tx.id error

/-- What every outcome of a group is, cancelled or not: one effect a transaction, in order. -/
theorem slotOutcome_ok {group : Nat} {transactions : List Transaction} {slot : Option Run}
    {outcome : GroupOutcome × Bool} (ok : slotOutcome group transactions slot = .ok outcome) :
    outcome.1.group = group ∧ effectsFault? transactions outcome.1.effects = none := by
  rcases slotOutcome_cases ok with ⟨effects, _, fine, rfl⟩ | ⟨_, rfl⟩
  · exact ⟨rfl, fine⟩
  · exact ⟨rfl, effectsFault?_failed transactions _⟩

/-- A slot gives no outcome only if its group failed or its effects break the contract. -/
theorem slotOutcome_error {group : Nat} {transactions : List Transaction} {slot : Option Run}
    {error : BlockError} (failed : slotOutcome group transactions slot = .error error) :
    (∃ source, error = .groupFailed group source) ∨
      ∃ phase reason, error = .executorContract phase reason := by
  unfold slotOutcome at failed
  split at failed
  · simp only [checkEffects] at failed
    split at failed
    · cases failed
      exact .inr ⟨_, _, rfl⟩
    · cases failed
  · cases failed
  · cases failed
    exact .inl ⟨_, rfl⟩
  · cases failed
    exact .inl ⟨_, rfl⟩

/-- Outcomes that are one a group, in order, and each fit their group. -/
structure Answering (groups : List (List Transaction)) (outcomes : List GroupOutcome) : Prop where
  placed : outcomes.map GroupOutcome.group = List.range groups.length
  fitting : ∀ outcome ∈ outcomes,
    effectsFault? (groups.getD outcome.group []) outcome.effects = none

namespace Answering

variable {partition : Partition} {outcomes some : List GroupOutcome}

theorem ordered (h : Answering partition.groups outcomes) (sublist : some.Sublist outcomes) :
    (some.map GroupOutcome.group).Pairwise (· < ·) := by
  have hs := sublist.map GroupOutcome.group
  rw [h.placed] at hs
  exact List.pairwise_lt_range.sublist hs

theorem split (h : Answering partition.groups outcomes) :
    ((acceptedOutcomes outcomes).map GroupOutcome.group ++
      (rejectedOutcomes outcomes).map GroupOutcome.group).Perm
        (List.range partition.groups.length) := by
  have hp := (accepted_append_rejected outcomes).map GroupOutcome.group
  rwa [List.map_append, h.placed] at hp

theorem map_id (h : Answering partition.groups outcomes) (subset : some ⊆ outcomes) :
    (some.flatMap GroupOutcome.effects).map Effect.id =
      (partition.members (some.map GroupOutcome.group)).map Transaction.id := by
  induction some with
  | nil => rfl
  | cons outcome rest ih =>
    obtain ⟨here, later⟩ := List.cons_subset.mp subset
    have first := (effectsFault?_eq_none_iff.mp (h.fitting outcome here)).1
    rw [List.flatMap_cons, List.map_append, first, ih later, List.map_cons, Partition.members,
      Partition.members, List.flatMap_cons, List.map_append]

theorem accepted_id (h : Answering partition.groups outcomes) :
    (resolve outcomes).acceptedEffects.map Effect.id =
      (partition.members ((acceptedOutcomes outcomes).map GroupOutcome.group)).map
        Transaction.id := by
  rw [← h.map_id (acceptedOutcomes_sublist outcomes).subset, acceptedEffects_resolve, List.map_map]
  rfl

theorem rejected_id (h : Answering partition.groups outcomes) :
    (resolve outcomes).rejectedEffects.map Effect.id =
      (partition.members ((rejectedOutcomes outcomes).map GroupOutcome.group)).map
        Transaction.id := by
  rw [← h.map_id (rejectedOutcomes_sublist outcomes).subset, rejectedEffects_resolve, List.map_map]
  rfl

end Answering

namespace Pool

variable {job : Nat → Token → Answer × Token}

theorem WorkerStep.length_slots {pool next : Pool} (step : WorkerStep job pool next) :
    next.slots.length = pool.slots.length := by
  obtain ⟨i, place, _, turn⟩ := step.turn
  cases turn with
  | stored => exact List.length_set
  | _ => rfl

theorem length_slots_run (pool : Pool) (events : List Event) :
    (pool.run job events).slots.length = pool.slots.length := by
  exact run_keeps (P := fun next => next.slots.length = pool.slots.length)
    (fun _ h => h) (fun _ _ h step => step.length_slots.trans h) rfl events

theorem length_slots_groupPhase (engine : Engine) (groups : List (List Transaction))
    (base : StateView) (overlay : Overlay) (signalled : Bool) (events : List Event) :
    (engine.groupPhase groups base overlay signalled events).slots.length = groups.length := by
  rw [Engine.groupPhase, length_slots_run]
  simp [start]

theorem outcomes_each {pool : Pool} {groups : List (List Transaction)}
    {outcomes : List (GroupOutcome × Bool)} (slots : pool.slots.length = groups.length)
    (ok : pool.outcomes groups = .ok outcomes) :
    outcomes.length = groups.length ∧
      ∀ group (hg : group < groups.length) (hs : group < pool.slots.length)
        (ho : group < outcomes.length),
        slotOutcome group groups[group] pool.slots[group] = .ok outcomes[group] := by
  unfold Pool.outcomes at ok
  split at ok
  · cases ok
  · split at ok
    · cases ok
    · have all := forall₂_of_mapM_ok ok
      have hl := all.length_eq
      simp only [List.length_zipIdx, List.length_zip] at hl
      refine ⟨by omega, fun group hg hs ho => ?_⟩
      have hz : group < (groups.zip pool.slots).zipIdx.length := by
        rw [List.length_zipIdx, List.length_zip]
        omega
      have placed := (List.forall₂_iff_get.mp all).2 group hz ho
      simpa only [List.get_eq_getElem, List.getElem_zipIdx, List.getElem_zip,
        Nat.zero_add] using placed

/-- The outcomes of a pool are one a group, in order, and each answers for its group. -/
theorem outcomes_ok {pool : Pool} {groups : List (List Transaction)}
    {outcomes : List (GroupOutcome × Bool)} (slots : pool.slots.length = groups.length)
    (ok : pool.outcomes groups = .ok outcomes) : Answering groups (outcomes.map Prod.fst) := by
  obtain ⟨hl, each⟩ := outcomes_each slots ok
  constructor
  · apply List.ext_getElem
    · rw [List.length_map, List.length_map, List.length_range, hl]
    · intro group ho hg
      have here : group < outcomes.length := by simpa using ho
      rw [List.getElem_map, List.getElem_map, List.getElem_range]
      exact (slotOutcome_ok (each group (by omega) (by omega) here)).1
  · intro outcome hm
    obtain ⟨pair, hp, rfl⟩ := List.mem_map.mp hm
    obtain ⟨group, ho, rfl⟩ := List.mem_iff_getElem.mp hp
    have hg : group < groups.length := hl ▸ ho
    obtain ⟨same, fine⟩ := slotOutcome_ok (each group hg (by omega) ho)
    rw [same, List.getD_eq_getElem?_getD, List.getElem?_eq_getElem hg]
    exact fine

/-- The groups fail a block only by a worker that went down, a group that failed, or effects that
break the contract. -/
theorem outcomes_error {pool : Pool} {groups : List (List Transaction)} {error : BlockError}
    (failed : pool.outcomes groups = .error error) :
    error = .workerCrashed ∨ (∃ group source, error = .groupFailed group source) ∨
      ∃ phase reason, error = .executorContract phase reason := by
  unfold Pool.outcomes at failed
  split at failed
  · cases failed
    exact .inl rfl
  · split at failed
    · cases failed
      exact .inr (.inl ⟨_, _, rfl⟩)
    · obtain ⟨entry, _, drawn⟩ := exists_of_mapM_error failed
      rcases slotOutcome_error drawn with ⟨source, he⟩ | broken
      · exact .inr (.inl ⟨_, source, he⟩)
      · exact .inr (.inr broken)

end Pool

/-- Dropping notes about touched keys changes nothing that is left pending. -/
theorem ofEffects_acceptedEffects (outcomes : List GroupOutcome) :
    Overlay.ofEffects (resolve outcomes).acceptedEffects =
      Overlay.ofEffects ((acceptedOutcomes outcomes).flatMap GroupOutcome.effects) := by
  apply Overlay.ofEffects_congr
  rw [acceptedEffects_resolve, List.map_map]
  rfl

/-- What a result owes to the block it is about, given the places of the accepted and of the
rejected groups in the partition. -/
structure BlockResult.Accounts (result : BlockResult) (partition : Partition)
    (block : List Transaction) (accepted rejected : List Nat) : Prop where
  split : (accepted ++ rejected).Perm (List.range partition.groups.length)
  accepted_ordered : accepted.Pairwise (· < ·)
  rejected_ordered : rejected.Pairwise (· < ·)
  listed : result.effects.map Effect.id =
    (partition.serial ++ (partition.members accepted ++ (partition.unroutable ++
      partition.members rejected))).map Transaction.id
  complete : (result.effects.map Effect.id).Perm (block.map Transaction.id)
  serial : result.serial = partition.serial.length
  accepted_count : result.accepted = (partition.members accepted).length
  unroutable : result.unroutable = partition.unroutable.length
  conflicting : result.conflicting = (partition.members rejected).length
  groups : result.groups = partition.groups.length
  conflicting_groups : result.conflictingGroups = rejected.length
  rejected_effects : ∀ effect ∈
      result.effects.drop (result.serial + result.accepted + result.unroutable),
    effect.status = .conflict ∧ effect.receipt.status = .conflict ∧
      effect.receipt.error = some "parallel conflict"
  unroutable_effects : ∀ effect ∈
      (result.effects.drop (result.serial + result.accepted)).take result.unroutable,
    effect.status = .failed ∧ effect.writes = ∅ ∧ effect.deletes = ∅ ∧ effect.accesses = ∅

namespace Engine

theorem conclude_eq (partition : Partition) (expected : Nat) (serial : List Effect)
    (outcomes : List (GroupOutcome × Bool)) :
    conclude partition expected serial outcomes =
      let resolution := resolve (outcomes.map Prod.fst)
      let unroutable := partition.unroutable.map fun tx =>
        Effect.failed tx.id Effect.invalidContract
      let accounted := serial.length + resolution.acceptedEffects.length + unroutable.length +
        resolution.rejectedEffects.length
      if accounted ≠ expected then .error (.accounting accounted expected)
      else .ok {
        effects := serial ++ (resolution.acceptedEffects ++ (unroutable ++
          resolution.rejectedEffects.map Effect.demote))
        serial := serial.length
        accepted := resolution.acceptedEffects.length
        unroutable := unroutable.length
        conflicting := resolution.rejectedEffects.length
        groups := partition.groups.length
        conflictingGroups := resolution.rejected.length
        cancelledGroups := outcomes.countP Prod.snd } := by
  simp only [conclude, assemble]
  split <;> rfl

/-- The effects of a block are those of its parts, and the parts are counted. -/
theorem conclude_ok {partition : Partition} {expected : Nat} {serial : List Effect}
    {outcomes : List (GroupOutcome × Bool)} {result : BlockResult}
    (drawn : conclude partition expected serial outcomes = .ok result) :
    result.effects = serial ++ ((resolve (outcomes.map Prod.fst)).acceptedEffects ++
        ((partition.unroutable.map fun tx => Effect.failed tx.id Effect.invalidContract) ++
          (resolve (outcomes.map Prod.fst)).rejectedEffects.map Effect.demote)) ∧
      result.serial = serial.length ∧
      result.accepted = (resolve (outcomes.map Prod.fst)).acceptedEffects.length ∧
      result.conflicting = (resolve (outcomes.map Prod.fst)).rejectedEffects.length ∧
      result.conflictingGroups = (resolve (outcomes.map Prod.fst)).rejected.length := by
  simp only [conclude_eq] at drawn
  split at drawn
  · cases drawn
  · cases drawn
    exact ⟨rfl, rfl, rfl, rfl, rfl⟩

/-- What is pending after a block comes from the serial transactions and the accepted groups
alone. -/
theorem conclude_overlay {partition : Partition} {expected : Nat} {serial : List Effect}
    {outcomes : List (GroupOutcome × Bool)} {result : BlockResult}
    (drawn : conclude partition expected serial outcomes = .ok result) (prior : Option Overlay) :
    result.overlay prior = Overlay.merge prior
      (serial ++ (acceptedOutcomes (outcomes.map Prod.fst)).flatMap GroupOutcome.effects) := by
  have rejected : Overlay.ofEffects
      ((resolve (outcomes.map Prod.fst)).rejectedEffects.map Effect.demote) = .empty := by
    apply Overlay.ofEffects_eq_empty
    intro effect hm
    obtain ⟨kept, _, rfl⟩ := List.mem_map.mp hm
    exact Effect.lasting_demote kept
  simp only [BlockResult.overlay, Overlay.merge, (conclude_ok drawn).1, Overlay.ofEffects_append,
    ofEffects_acceptedEffects, rejected, Overlay.ofEffects_failed, Overlay.extend_empty]

variable {engine : Engine} {transactions : List Transaction} {header : Header} {base : StateView}
  {prior : Option Overlay} {token : Token} {events : List Event}

theorem serialPhase_ok {batch : List Transaction} {effects : List Effect} {left : Token}
    (ran : engine.serialPhase batch base prior token = (.ok effects, left)) :
    effectsFault? batch effects = none := by
  unfold serialPhase at ran
  split at ran
  · rename_i none
    cases ran
    rw [List.isEmpty_iff.mp none]
    rfl
  · split at ran
    · cases ran
    · cases ran
    · cases ran
    · have checked := (Prod.mk.inj ran).1
      obtain ⟨rfl, fine⟩ := checkEffects_ok checked
      exact fine

theorem serialPhase_answered {batch : List Transaction} {serial : List Effect} {left : Token}
    (ok : engine.serialPhase batch base prior token = (.ok serial, left)) (some : batch ≠ []) :
    (engine.executor.execute .serial batch base (prior.getD .empty) token).1 = .done (.ok serial) := by
  rw [serialPhase, if_neg (mt List.isEmpty_iff.mp some)] at ok
  split at ok
  · cases ok
  · cases ok
  · cases ok
  · rename_i answered
    obtain ⟨rfl, _⟩ := checkEffects_ok (congrArg Prod.fst ok)
    rw [answered]

/-- Checked parts always add up to the block. -/
theorem conclude_accounts {partition : Partition} {block : List Transaction} {serial : List Effect}
    {outcomes : List (GroupOutcome × Bool)}
    (valid : partition.fault? (block.map Transaction.id) = none)
    (serially : effectsFault? partition.serial serial = none)
    (answering : Answering partition.groups (outcomes.map Prod.fst)) :
    ∃ result, conclude partition block.length serial outcomes = .ok result ∧
      result.Accounts partition block
        ((resolve (outcomes.map Prod.fst)).accepted.map GroupOutcome.group)
        ((resolve (outcomes.map Prod.fst)).rejected.map GroupOutcome.group) := by
  rw [map_group_accepted, map_group_rejected, conclude_eq]
  generalize outcomes.map Prod.fst = os at answering
  have serialIds := (effectsFault?_eq_none_iff.mp serially).1
  have listed : (serial ++ ((resolve os).acceptedEffects ++
      ((partition.unroutable.map fun tx => Effect.failed tx.id Effect.invalidContract) ++
        (resolve os).rejectedEffects.map Effect.demote))).map Effect.id =
      (partition.serial ++ (partition.members ((acceptedOutcomes os).map GroupOutcome.group) ++
        (partition.unroutable ++
          partition.members ((rejectedOutcomes os).map GroupOutcome.group)))).map
            Transaction.id := by
    simp only [List.map_append, List.map_map, serialIds, answering.accepted_id,
      ← answering.rejected_id]
    rfl
  have complete := ((partition.listed_perm answering.split).map Transaction.id).trans
    (Partition.fault?_eq_none_iff.mp valid).2
  rw [← listed] at complete
  have accounted : serial.length + (resolve os).acceptedEffects.length +
      (partition.unroutable.map fun tx => Effect.failed tx.id Effect.invalidContract).length +
        (resolve os).rejectedEffects.length = block.length := by
    have hl := complete.length_eq
    simp only [List.length_map, List.length_append] at hl ⊢
    omega
  refine ⟨_, if_neg (Decidable.not_not.mpr accounted), {
    split := answering.split
    accepted_ordered := answering.ordered (acceptedOutcomes_sublist os)
    rejected_ordered := answering.ordered (rejectedOutcomes_sublist os)
    listed, complete
    serial := by simpa using congrArg List.length serialIds
    accepted_count := by simpa using congrArg List.length answering.accepted_id
    unroutable := List.length_map _
    conflicting := by simpa using congrArg List.length answering.rejected_id
    groups := rfl
    conflicting_groups := ?_
    rejected_effects := ?_
    unroutable_effects := ?_ }⟩
  · simp [resolve_eq]
  · intro effect hm
    simp only [← List.append_assoc] at hm
    rw [List.drop_left' (by simp [Nat.add_assoc])] at hm
    obtain ⟨kept, _, rfl⟩ := List.mem_map.mp hm
    exact ⟨rfl, rfl, rfl⟩
  · intro effect hm
    simp only [← List.append_assoc serial] at hm
    rw [List.drop_left' (by simp), List.take_left' rfl] at hm
    obtain ⟨tx, _, rfl⟩ := List.mem_map.mp hm
    exact ⟨rfl, rfl, rfl, rfl⟩

end Engine
end GroupedLedger
