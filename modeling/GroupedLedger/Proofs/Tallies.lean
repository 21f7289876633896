import GroupedLedger.Proofs.Conservation
import GroupedLedger.Proofs.Persistence
import GroupedLedger.Proofs.Streams

namespace GroupedLedger

/-- A transaction was mined, or has failed and leaves nothing. -/
def Effect.Ended (effect : Effect) : Prop :=
  effect.status = .mined ∨ effect.status = .failed ∧ effect.lasting = .empty

namespace Effect

theorem ended_failed (id : Digest) (error : String) : (failed id error).Ended :=
  .inr ⟨rfl, lasting_failed id error⟩

theorem Ended.strip {effect : Effect} (h : effect.Ended) (keys : KeySet) :
    (effect.strip keys).Ended := h

end Effect

theorem Attempted.ended {below : Lookup} {batch : List Transaction} {effects : List Effect}
    (h : Attempted below batch effects) : ∀ effect ∈ effects, effect.Ended := by
  intro effect mem
  rcases h with rfl | rfl
  · obtain ⟨tx, _, found, rfl⟩ := Vm.exists_of_mem_effects mem
    refine (Vm.effect_status found tx).imp_right fun failed => ⟨failed, ?_⟩
    apply Vm.lasting_of_not_mined
    simp [failed]
  · obtain ⟨tx, _, rfl⟩ := List.mem_map.mp mem
    exact Effect.ended_failed _ _

namespace BlockResult

/-- What a block's result counts goes with its effects. -/
structure Tallied (result : BlockResult) (transactions : List Transaction) : Prop where
  complete : (result.effects.map Effect.id).Perm (transactions.map Transaction.id)
  executed : ∀ effect ∈ result.effects, effect.status ≠ .pending
  lasting : ∀ effect ∈ result.effects, effect.status ≠ .mined → effect.lasting = .empty
  conflicting : result.conflicting = result.countStatus .conflict
  conflicting_groups : result.conflictingGroups ≤ result.groups
  conflicting_iff : result.conflicting = 0 ↔ result.conflictingGroups = 0

/-- The effects of a result are some that were mined or have failed, and behind them those that were
marked. -/
structure Marked (result : BlockResult) (ended rejected : List Effect) : Prop where
  effects : result.effects = ended ++ rejected.map Effect.demote
  ended : ∀ effect ∈ ended, effect.Ended
  conflicting : result.conflicting = rejected.length

namespace Marked

variable {result : BlockResult} {ended rejected : List Effect}

theorem executed (h : result.Marked ended rejected) :
    ∀ effect ∈ result.effects, effect.status ≠ .pending := by
  intro effect mem
  rcases List.mem_append.mp (h.effects ▸ mem) with hm | hm
  · rcases h.ended effect hm with mined | ⟨failed, _⟩
    · simp [mined]
    · simp [failed]
  · obtain ⟨raw, _, rfl⟩ := List.mem_map.mp hm
    exact nofun

theorem lasting (h : result.Marked ended rejected) :
    ∀ effect ∈ result.effects, effect.status ≠ .mined → effect.lasting = .empty := by
  intro effect mem unmined
  rcases List.mem_append.mp (h.effects ▸ mem) with hm | hm
  · exact ((h.ended effect hm).resolve_left unmined).2
  · obtain ⟨raw, _, rfl⟩ := List.mem_map.mp hm
    exact Effect.lasting_demote raw

/-- Only the marked effects are counted as conflicts, and all of them are. -/
theorem countStatus_conflict (h : result.Marked ended rejected) :
    result.countStatus .conflict = rejected.length := by
  have unmarked : (ended.countP fun effect => effect.status == .conflict) = 0 := by
    rw [List.countP_eq_zero]
    intro effect hm
    rcases h.ended effect hm with mined | ⟨failed, _⟩
    · simp [mined]
    · simp [failed]
  rw [countStatus, h.effects, List.countP_append, unmarked, List.countP_map, Nat.zero_add]
  exact List.countP_eq_length.mpr fun effect _ => rfl

end Marked

namespace Accounts

variable {result : BlockResult} {partition : Partition} {block : List Transaction}
  {accepted rejected : List Nat}

theorem conflicting_groups_le (h : result.Accounts partition block accepted rejected) :
    result.conflictingGroups ≤ result.groups := by
  have split := h.split.length_eq
  rw [List.length_append, List.length_range] at split
  rw [h.conflicting_groups, h.groups]
  omega

/-- A rejected group is one of the partition's, and these have transactions. -/
theorem conflicting_iff (h : result.Accounts partition block accepted rejected)
    (filled : ∀ group ∈ partition.groups, group ≠ []) :
    result.conflicting = 0 ↔ result.conflictingGroups = 0 := by
  rw [h.conflicting, h.conflicting_groups, List.length_eq_zero_iff, List.length_eq_zero_iff,
    Partition.members, List.flatMap_eq_nil_iff]
  constructor
  · intro empty
    rw [List.eq_nil_iff_forall_not_mem]
    intro place mem
    have inside := List.mem_range.mp (h.split.subset (List.mem_append_right _ mem))
    have none := empty place mem
    rw [List.getD_eq_getElem?_getD, List.getElem?_eq_getElem inside] at none
    exact filled _ (List.getElem_mem inside) none
  · intro none
    simp [none]

end Accounts

end BlockResult

namespace Engine

variable {engine : Engine} {transactions : List Transaction} {header : Header} {base : StateView}
  {prior : Option Overlay} {token : Token} {events : List Event}

theorem Concluded.marked {serial : List Effect} {outcomes : List (GroupOutcome × Bool)}
    {result : BlockResult}
    (h : Concluded engine transactions header base prior token events serial outcomes result)
    (contracts : engine.executor = .contracts) :
    ∃ ended rejected : List Effect, result.Marked ended rejected := by
  obtain ⟨left, serially, _⟩ := h.phases
  obtain ⟨listed, _, _, conflicting, _⟩ := conclude_ok h.drawn
  rw [← List.append_assoc, ← List.append_assoc] at listed
  refine ⟨_, _, listed, ?_, conflicting⟩
  intro effect mem
  simp only [List.mem_append, acceptedEffects_resolve, List.mem_map, List.mem_flatMap] at mem
  rcases mem with (hs | ⟨raw, ⟨outcome, ho, hm⟩, rfl⟩) | ⟨tx, _, rfl⟩
  · have attempted := serialPhase_effects contracts serially
    exact Attempted.ended (.inl attempted) effect hs
  · have attempted := h.attempted contracts outcome ((acceptedOutcomes_sublist _).subset ho)
    exact (attempted.ended raw hm).strip _
  · exact Effect.ended_failed _ _

/-- A block of contract calls has its counts from its effects, whatever the signal does. -/
theorem Concluded.tallied {serial : List Effect} {outcomes : List (GroupOutcome × Bool)}
    {result : BlockResult}
    (h : Concluded engine transactions header base prior token events serial outcomes result)
    (contracts : engine.executor = .contracts) : result.Tallied transactions := by
  obtain ⟨ended, rejected, marked⟩ := h.marked contracts
  have filled := (Partition.fault?_eq_none_iff.mp h.partitioned).1
  exact {
    complete := h.accounts.complete
    executed := marked.executed
    lasting := marked.lasting
    conflicting := marked.conflicting.trans marked.countStatus_conflict.symm
    conflicting_groups := h.accounts.conflicting_groups_le
    conflicting_iff := h.accounts.conflicting_iff filled }

end Engine

theorem length_of_executed {effects : List Effect}
    (executed : ∀ effect ∈ effects, effect.status ≠ .pending) :
    (effects.countP fun effect => effect.status == .mined) +
        (effects.countP fun effect => effect.status == .failed) +
          (effects.countP fun effect => effect.status == .conflict) = effects.length := by
  induction effects with
  | nil => rfl
  | cons effect effects ih =>
    have later := ih fun other hm => executed other (by simp [hm])
    have here := executed effect (by simp)
    rw [List.countP_cons, List.countP_cons, List.countP_cons, List.length_cons]
    cases status : effect.status with
    | pending => exact absurd status here
    | mined =>
      simp
      omega
    | failed =>
      simp
      omega
    | conflict =>
      simp
      omega

namespace Tally

/-- What a tally owes to a chain of blocks and their effects. -/
structure Accounts (tally : Tally) (chain : List Block) (effects : List Effect) : Prop where
  complete : (effects.map Effect.id).Perm ((chain.flatMap Block.transactions).map Transaction.id)
  executed : ∀ effect ∈ effects, effect.status ≠ .pending
  lasting : ∀ effect ∈ effects, effect.status ≠ .mined → effect.lasting = .empty
  successful : tally.successful = effects.countP fun effect => effect.status == .mined
  failed : tally.failed = effects.countP fun effect => effect.status == .failed
  conflicted : tally.conflicted = effects.countP fun effect => effect.status == .conflict
  blocks : tally.blocks = chain.length
  conflicting_groups : tally.conflictingGroups ≤ tally.groups

variable {tally : Tally} {chain : List Block} {effects : List Effect}

theorem accounts_start : ({} : Tally).Accounts [] [] := by
  refine ⟨.nil, ?_, ?_, rfl, rfl, rfl, rfl, Nat.le_refl 0⟩
  · simp
  · simp

theorem Accounts.taking (h : tally.Accounts chain effects) {block : Block} {result : BlockResult}
    (tallied : result.Tallied block.transactions) :
    (tally.taking result).Accounts (chain ++ [block]) (effects ++ result.effects) where
  complete := by
    rw [List.flatMap_append, List.flatMap_singleton, List.map_append, List.map_append]
    exact h.complete.append tallied.complete
  executed effect mem := (List.mem_append.mp mem).elim (h.executed effect) (tallied.executed effect)
  lasting effect mem := (List.mem_append.mp mem).elim (h.lasting effect) (tallied.lasting effect)
  successful := by
    rw [Tally.taking, h.successful, List.countP_append]
    rfl
  failed := by
    rw [Tally.taking, h.failed, List.countP_append]
    rfl
  conflicted := by
    rw [Tally.taking, h.conflicted, tallied.conflicting, List.countP_append]
    rfl
  blocks := by
    rw [Tally.taking, h.blocks, List.length_append]
    rfl
  conflicting_groups := Nat.add_le_add h.conflicting_groups tallied.conflicting_groups

theorem Accounts.foldl {blocks : List Block} {results : List BlockResult}
    (tallied : List.Forall₂ (fun block result => result.Tallied block.transactions) blocks results)
    (h : tally.Accounts chain effects) :
    (results.foldl Tally.taking tally).Accounts (chain ++ blocks)
      (effects ++ results.flatMap BlockResult.effects) := by
  induction tallied generalizing tally chain effects with
  | nil => simpa using h
  | @cons block result blocks results first _ ih =>
    have later := ih (h.taking first)
    rwa [List.append_assoc, List.append_assoc] at later

/-- Every transaction is in just one of the counts. -/
theorem Accounts.total (h : tally.Accounts chain effects) :
    tally.total = (chain.flatMap Block.transactions).length := by
  have length := h.complete.length_eq
  rw [List.length_map, List.length_map] at length
  rw [Tally.total, h.successful, h.failed, h.conflicted, length_of_executed h.executed, length]

end Tally

namespace Ledger

variable {engine : Engine} {ledger : Ledger}

/-- Each block's result has its counts from its effects. -/
theorem run_tallied (contracts : engine.executor = .contracts) {turns : Nat → List Nat}
    {first : Nat} {blocks : List Block} {results : List BlockResult}
    (ran : (ledger.run engine (Runner.moves turns first blocks)).1 = results.map .ok) :
    List.Forall₂ (fun block result => result.Tallied block.transactions) blocks results := by
  induction blocks generalizing ledger first results with
  | nil =>
    rw [List.map_eq_nil_iff.mp ran.symm]
    exact .nil
  | cons block rest ih =>
    cases results with
    | nil => cases ran
    | cons result results =>
      obtain ⟨here, later⟩ := List.cons.inj ran
      obtain ⟨_, _, concluded⟩ := Engine.execute_ok here
      exact .cons (concluded.tallied contracts) (@ih _ (first + 1) results later)

end Ledger

namespace Runner

variable {threads : Nat} {grouper : Grouper} {turns : Nat → List Nat}

/-- A runner gets through its blocks as soon as its grouper splits each of them. -/
theorem exists_foldlM {genesis : Snapshot} {blocks : List Block}
    (splits : ∀ block ∈ blocks, (grouper (.ofHeader block.header) block.transactions).fault?
      (block.transactions.map Transaction.id) = none) (state : Option Overlay × Tally) :
    ∃ last, blocks.foldlM (groupedBlock ⟨threads, grouper, .contracts⟩ turns genesis) state =
      .ok last := by
  induction blocks generalizing state with
  | nil => exact ⟨state, rfl⟩
  | cons block rest ih =>
    have quiet : Event.signal ∉ (turns state.2.blocks).map (Event.step · 0) := by simp
    obtain ⟨result, ran⟩ := @Engine.exists_result_contracts ⟨threads, grouper, .contracts⟩
      block.transactions block.header genesis.view state.1 _ rfl (fun _ => rfl) quiet
      (splits block (by simp))
    rw [List.foldlM_cons, groupedBlock_eq ran]
    exact ih (fun other hm => splits other (by simp [hm])) _

theorem exists_run {workload : Workload} (splits : ∀ block ∈ workload.blocks,
      (grouper (.ofHeader block.header) block.transactions).fault?
        (block.transactions.map Transaction.id) = none) :
    ∃ state tally, (grouped threads grouper turns).run workload = .ok (state, tally) := by
  obtain ⟨⟨overlay, tally⟩, ran⟩ := @exists_foldlM threads grouper turns workload.genesis _ splits
    (none, {})
  refine ⟨overlay.elim workload.genesis workload.genesis.apply, tally, ?_⟩
  simp only [grouped, ran]
  rfl

/-- Whatever the grouper, a runner that ends has counted every transaction of its workload once: as
mined, as failed or as rejected, by the status of its effect, and no effect is still pending. No
more groups were rejected than there were, and a block adds to the rejected groups if and only if it
adds to the rejected transactions. The mined effects of all blocks, in order, lead from the genesis
state to the final one. -/
theorem grouped_accounts {workload : Workload} {state : Snapshot} {tally : Tally}
    (ran : (grouped threads grouper turns).run workload = .ok (state, tally)) :
    ∃ results : List BlockResult,
      ((⟨workload.genesis, none⟩ : Ledger).run ⟨threads, grouper, .contracts⟩
        (moves turns 0 workload.blocks)).1 = results.map .ok ∧
      List.Forall₂ (fun block result => result.Tallied block.transactions) workload.blocks results ∧
      tally = results.foldl Tally.taking {} ∧
      tally.Accounts workload.blocks (results.flatMap BlockResult.effects) ∧
      tally.total = workload.transactionCount ∧
      state = workload.genesis.apply (.ofEffects
        ((results.flatMap BlockResult.effects).filter fun effect => effect.status == .mined)) := by
  obtain ⟨results, last, followed, rfl, rfl⟩ := run_of_grouped ran
  have each : ((⟨workload.genesis, none⟩ : Ledger).run ⟨threads, grouper, .contracts⟩
      (moves turns 0 workload.blocks)).1 = results.map .ok := congrArg Prod.fst followed
  have tallied := Ledger.run_tallied rfl each
  have accounts := Tally.accounts_start.foldl tallied
  rw [List.nil_append, List.nil_append] at accounts
  refine ⟨results, each, tallied, rfl, accounts, accounts.total, ?_⟩
  rw [Ledger.state_run followed, Overlay.ofEffects_filter]
  · rfl
  · intro effect mem unmined
    exact accounts.lasting effect mem (by simpa using unmined)

/-- Both payments are groups of their own, and the grouper splits the block. -/
theorem sample_grouped_accounts : ∃ state tally,
    (grouped 2 Sample.engine.grouper).run Sample.whole = .ok (state, tally) ∧
      tally.total = 4 ∧ tally.blocks = 1 ∧ tally.conflictingGroups ≤ tally.groups := by
  have splits : ∀ block ∈ Sample.whole.blocks,
      (Sample.engine.grouper (.ofHeader block.header) block.transactions).fault?
        (block.transactions.map Transaction.id) = none :=
    List.forall_mem_singleton.mpr Sample.partition_fault
  obtain ⟨state, tally, ran⟩ := exists_run splits
  obtain ⟨_, _, _, _, accounts, total, _⟩ := grouped_accounts ran
  exact ⟨state, tally, ran, total, accounts.blocks, accounts.conflicting_groups⟩

end Runner

end GroupedLedger
