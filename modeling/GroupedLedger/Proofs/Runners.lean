import GroupedLedger.Proofs.Completeness
import GroupedLedger.Proofs.ResourceBlocks
import GroupedLedger.Runner

namespace GroupedLedger

theorem Vm.effects_perm {transactions others : List Transaction}
    (shuffled : Shuffle Transaction.Apart transactions others) (below : Lookup) :
    (effects below transactions).Perm (effects below others) := by
  have zipped := effects_zip_perm id shuffled below
  rw [List.map_id, List.map_id] at zipped
  have seconds := zipped.map Prod.snd
  rwa [List.map_snd_zip (length_effects below transactions).le,
    List.map_snd_zip (length_effects below others).le] at seconds

theorem Vm.countP_failed (below : Lookup) (transactions : List Transaction) :
    (effects below transactions).countP (fun effect => effect.status == .failed) =
      (effects below transactions).length -
        (effects below transactions).countP fun effect => effect.status == .mined := by
  have split := List.length_eq_countP_add_countP (fun effect : Effect => effect.status == .mined)
    (l := effects below transactions)
  have failed : (effects below transactions).countP (fun effect => effect.status == .failed) =
      (effects below transactions).countP fun effect =>
        decide ¬ (effect.status == .mined) = true := by
    apply List.countP_congr
    intro one mem
    obtain ⟨tx, _, found, rfl⟩ := exists_of_mem_effects mem
    rcases effect_status found tx with status | status
    · simp [status]
    · simp [status]
  omega

/-- A block's result counts and leaves behind what one batch with these effects does, and no group
was rejected. -/
structure BlockResult.Batched (result : BlockResult) (prior : Option Overlay)
    (effects : List Effect) : Prop where
  statuses : ∀ status, result.countStatus status =
    effects.countP fun effect => effect.status == status
  conflicting : result.conflicting = 0
  conflicting_groups : result.conflictingGroups = 0
  overlay : result.overlay prior = Overlay.merge prior effects

theorem countP_status {effects others : List Effect}
    (same : (effects.map Effect.status).Perm (others.map Effect.status)) (status : Status) :
    effects.countP (fun effect => effect.status == status) =
      others.countP fun effect => effect.status == status := by
  have counted := same.countP_eq fun found => found == status
  rwa [List.countP_map, List.countP_map] at counted

/-- A grouper under which every block comes to what it is as one batch. -/
def Grouper.Exact (grouper : Grouper) : Prop :=
  ∀ (threads : Nat) (transactions : List Transaction) (header : Header) (base : Snapshot)
    (prior : Option Overlay) (events : List Event), .signal ∉ events →
    ∃ result,
      (⟨threads, grouper, .contracts⟩ : Engine).execute transactions header base.view prior .quiet
        events = .ok result ∧
      result.Batched prior (Vm.effects ((prior.getD .empty).onto base.view.get?) transactions)

theorem Grouper.byResource_exact : Grouper.Exact .byResource := by
  intro threads transactions header base prior events quiet
  obtain ⟨result, keys, ran, listed, conflicting, conflictingGroups, pending⟩ :=
    @Engine.execute_byResource threads transactions header base.view (fun _ => rfl) prior events
      quiet
  have shuffled := Grouper.byResource_shuffle (.ofHeader header) transactions
  obtain ⟨_, left⟩ := Vm.effects_shuffle shuffled ((prior.getD .empty).onto base.view.get?)
  have perm := Vm.effects_perm shuffled ((prior.getD .empty).onto base.view.get?)
  have ordered := Vm.effects_listed ((prior.getD .empty).onto base.view.get?)
    fun _ => @Grouper.route_unroutable (.ofHeader header) transactions _
  refine ⟨result, ran, ?_, conflicting, conflictingGroups, ?_⟩
  · apply countP_status
    refine List.Perm.trans (.of_eq ?_) (perm.map Effect.status).symm
    rw [listed, ordered]
    simp only [List.map_append, List.map_map]
    rfl
  · rw [pending, Overlay.merge, Overlay.merge, left, ordered]
    simp only [Overlay.ofEffects_append, Overlay.ofEffects_failed, Overlay.extend_empty]

theorem Grouper.serial_fault (context : ChainContext) (transactions : List Transaction) :
    (Grouper.serial context transactions).fault? (transactions.map Transaction.id) = none := by
  refine Partition.fault?_eq_none_iff.mpr ⟨nofun, ?_⟩
  rw [Partition.toList, Grouper.serial, List.flatten_nil, List.append_nil, List.append_nil]

theorem Grouper.serial_exact : Grouper.Exact .serial := by
  intro threads transactions header base prior events quiet
  have valid := Grouper.serial_fault (.ofHeader header) transactions
  obtain ⟨result, ran⟩ := @Engine.exists_result_contracts ⟨threads, .serial, .contracts⟩
    transactions header base.view prior events rfl (fun _ => rfl) quiet valid
  obtain ⟨serial, outcomes, concluded⟩ := Engine.execute_ok ran
  obtain ⟨hs, ho⟩ := concluded.contracts rfl (fun _ => rfl) quiet
  obtain ⟨listed, _, _, conflicting, conflictingGroups⟩ := Engine.conclude_ok concluded.drawn
  have pending := Engine.conclude_overlay concluded.drawn prior
  have none : outcomes.map Prod.fst = [] := ho
  rw [none] at listed conflicting conflictingGroups pending
  change result.effects = serial ++ [] at listed
  rw [List.append_nil, hs] at listed
  refine ⟨result, ran, ?_, conflicting, conflictingGroups, ?_⟩
  · intro status
    rw [BlockResult.countStatus, listed]
    rfl
  · rw [BlockResult.overlay, listed]
    rfl

/-- The counts after some more blocks with these effects, run one batch a block. -/
def Tally.counting (tally : Tally) (effects : List Effect) (blocks : Nat) : Tally :=
  { tally with
    successful := tally.successful + effects.countP fun effect => effect.status == .mined
    failed := tally.failed + effects.countP fun effect => effect.status == .failed
    blocks := tally.blocks + blocks }

namespace Runner

/-- What a block comes to as one batch: its effects on what is seen through the overlay are laid
over it and counted. -/
theorem sequentialBlock_eq {genesis : Snapshot} {overlay : Overlay} {block : Block}
    {effects : List Effect}
    (ran : Vm.effects (overlay.onto genesis.view.get?) block.transactions = effects)
    (tally : Tally) :
    sequentialBlock genesis (overlay, tally) block =
      .ok (Overlay.merge (some overlay) effects, tally.counting effects 1) := by
  subst ran
  have batch := Vm.execute_quiet (fun _ => rfl : ∀ key, genesis.view.trips key = false)
    block.transactions overlay
  simp only [sequentialBlock, batch, Tally.counting, Vm.countP_failed]

def groupCount (grouper : Grouper) (blocks : List Block) : Nat :=
  (blocks.flatMap fun block => (grouper (.ofHeader block.header) block.transactions).groups).length

/-- What a runner by batches and one by groups have in common once they have executed some blocks:
what they hand on, and what they have counted. -/
structure Agree (grouper : Grouper) (blocks : List Block) (state : Overlay × Tally)
    (other : Option Overlay × Tally) : Prop where
  pristine : blocks = [] → state.1 = .empty
  handed : other.1 = if blocks.isEmpty then none else some state.1
  tally : ∃ successful failed, state.2 = { successful, failed, blocks := blocks.length } ∧
    other.2 = { successful, failed, blocks := blocks.length, groups := groupCount grouper blocks }

theorem agree_start (grouper : Grouper) : Agree grouper [] (.empty, {}) (none, {}) :=
  ⟨fun _ => rfl, rfl, 0, 0, rfl, rfl⟩

variable {grouper : Grouper} {blocks : List Block} {state : Overlay × Tally}
  {other : Option Overlay × Tally}

/-- The one runner starts from an empty overlay and the other from none, which comes to the same. -/
theorem Agree.overlay (h : Agree grouper blocks state other) : other.1.getD .empty = state.1 := by
  rw [h.handed]
  cases blocks with
  | nil => exact (h.pristine rfl).symm
  | cons block blocks => rfl

/-- A block keeps two runners in agreement. -/
theorem Agree.block (h : Agree grouper blocks state other) (exact : grouper.Exact) (threads : Nat)
    (turns : Nat → List Nat) (genesis : Snapshot) (block : Block) :
    ∃ next otherNext, sequentialBlock genesis state block = .ok next ∧
      groupedBlock ⟨threads, grouper, .contracts⟩ turns genesis other block = .ok otherNext ∧
      Agree grouper (blocks ++ [block]) next otherNext := by
  have same := h.overlay
  obtain ⟨overlay, tally⟩ := state
  obtain ⟨prior, count⟩ := other
  obtain ⟨_, _, successful, failed, rfl, rfl⟩ := h
  subst same
  have quiet : Event.signal ∉ (turns blocks.length).map (Event.step · 0) := by simp
  obtain ⟨result, ran, batched⟩ := exact threads block.transactions block.header genesis prior _
    quiet
  obtain ⟨_, _, concluded⟩ := Engine.execute_ok ran
  have groups := concluded.accounts.groups
  have batch := @sequentialBlock_eq genesis (prior.getD .empty) block _ rfl
    { successful, failed, blocks := blocks.length }
  refine ⟨_, (some (result.overlay prior), _), batch, by simp only [groupedBlock, ran]; rfl, ?_⟩
  have length : (blocks ++ [block]).length = blocks.length + 1 := List.length_append
  have count : groupCount grouper (blocks ++ [block]) = groupCount grouper blocks + result.groups := by
    rw [groups, groupCount, List.flatMap_append, List.length_append, List.flatMap_singleton]
    rfl
  have nonempty : (blocks ++ [block]).isEmpty = false := by simp
  refine ⟨fun none => by simp at none, ?_, _, _, by rw [length]; rfl, ?_⟩
  · rw [nonempty]
    exact congrArg some batched.overlay
  rw [length, count, batched.statuses, batched.statuses, batched.conflicting,
    batched.conflicting_groups]

theorem Agree.chain (h : Agree grouper blocks state other) (exact : grouper.Exact) (threads : Nat)
    (turns : Nat → List Nat) (genesis : Snapshot) (rest : List Block) :
    ∃ next otherNext, rest.foldlM (sequentialBlock genesis) state = .ok next ∧
      rest.foldlM (groupedBlock ⟨threads, grouper, .contracts⟩ turns genesis) other =
        .ok otherNext ∧
      Agree grouper (blocks ++ rest) next otherNext := by
  induction rest generalizing blocks state other with
  | nil => exact ⟨state, other, rfl, rfl, by rwa [List.append_nil]⟩
  | cons block rest ih =>
    obtain ⟨between, otherBetween, first, otherFirst, here⟩ := h.block exact threads turns genesis
      block
    obtain ⟨next, otherNext, later, otherLater, done⟩ := ih here
    refine ⟨next, otherNext, ?_, ?_, by rwa [List.append_assoc] at done⟩
    · rw [List.foldlM_cons, first]
      exact later
    · rw [List.foldlM_cons, otherFirst]
      exact otherLater

theorem exists_agree (exact : grouper.Exact) (threads : Nat) (turns : Nat → List Nat)
    (genesis : Snapshot) (blocks : List Block) :
    ∃ state other, blocks.foldlM (sequentialBlock genesis) (.empty, {}) = .ok state ∧
      blocks.foldlM (groupedBlock ⟨threads, grouper, .contracts⟩ turns genesis) (none, {}) =
        .ok other ∧ Agree grouper blocks state other :=
  (agree_start grouper).chain exact threads turns genesis blocks

/-- A runner by groups ends where the runner by batches does, and counts what that counts. -/
theorem run_agrees (exact : grouper.Exact) (threads : Nat) (turns : Nat → List Nat)
    (workload : Workload) : ∃ state successful failed,
      let tally : Tally := { successful, failed, blocks := workload.blocks.length }
      sequential.run workload = .ok (state, tally) ∧
      (grouped threads grouper turns).run workload =
        .ok (state, { tally with groups := groupCount grouper workload.blocks }) := by
  obtain ⟨state, other, ran, otherRan, agree⟩ :=
    exists_agree exact threads turns workload.genesis workload.blocks
  obtain ⟨successful, failed, counted, otherCounted⟩ := agree.tally
  have ended : other.1.elim workload.genesis workload.genesis.apply =
      workload.genesis.apply state.1 := by
    rw [← agree.overlay]
    cases other.1 with
    | none => rfl
    | some overlay => rfl
  refine ⟨workload.genesis.apply state.1, successful, failed, ?_, ?_⟩
  · simp only [sequential, ran]
    exact congrArg (fun tally => Except.ok (workload.genesis.apply state.1, tally)) counted
  · simp only [grouped, otherRan]
    rw [← ended, ← otherCounted]
    rfl

/-- All runners of a workload end alike, on however many threads and in whatever interleaving. They
end in the same state, count the same, and have no conflict; and they hand the same overlay on after
every block. -/
theorem runners_agree (workload : Workload) (threads : Nat) (turns : Nat → List Nat) :
    (∃ state successful failed,
      let tally : Tally := { successful, failed, blocks := workload.blocks.length }
      sequential.run workload = .ok (state, tally) ∧
      (grouped threads .byResource turns).run workload =
        .ok (state, { tally with groups := groupCount .byResource workload.blocks }) ∧
      (grouped threads .serial turns).run workload = .ok (state, tally)) ∧
    ∀ count,
      let blocks := workload.blocks.take count
      ∃ overlay tally byResource serial,
        blocks.foldlM (sequentialBlock workload.genesis) (.empty, {}) = .ok (overlay, tally) ∧
        blocks.foldlM (groupedBlock ⟨threads, .byResource, .contracts⟩ turns workload.genesis)
          (none, {}) = .ok (if blocks.isEmpty then none else some overlay, byResource) ∧
        blocks.foldlM (groupedBlock ⟨threads, .serial, .contracts⟩ turns workload.genesis)
          (none, {}) = .ok (if blocks.isEmpty then none else some overlay, serial) := by
  constructor
  · obtain ⟨state, successful, failed, ran, byResource⟩ :=
      run_agrees Grouper.byResource_exact threads turns workload
    obtain ⟨_, _, _, again, serial⟩ := run_agrees Grouper.serial_exact threads turns workload
    rw [ran] at again
    cases again
    have none : groupCount .serial workload.blocks = 0 := by simp [groupCount, Grouper.serial]
    rw [none] at serial
    exact ⟨state, successful, failed, ran, byResource, serial⟩
  · intro count blocks
    obtain ⟨state, other, ran, byResource, agree⟩ :=
      exists_agree Grouper.byResource_exact threads turns workload.genesis blocks
    obtain ⟨_, another, again, serial, agreeToo⟩ :=
      exists_agree Grouper.serial_exact threads turns workload.genesis blocks
    rw [ran] at again
    cases again
    refine ⟨state.1, state.2, other.2, another.2, ran, ?_, ?_⟩
    · rw [← agree.handed]
      exact byResource
    · rw [← agreeToo.handed]
      exact serial

end Runner
end GroupedLedger
