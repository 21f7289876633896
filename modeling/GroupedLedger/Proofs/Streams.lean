import GroupedLedger.Proofs.Runners

namespace GroupedLedger

def Workload.stream (workload : Workload) : List Transaction :=
  workload.blocks.flatMap Block.transactions

theorem Tally.counting_counting (tally : Tally) (first rest : List Effect) (blocks more : Nat) :
    (tally.counting first blocks).counting rest more =
      tally.counting (first ++ rest) (blocks + more) := by
  simp only [counting, List.countP_append, Nat.add_assoc]

/-- A batch may be cut in two: its second part has the effects that it has on what the first part
left pending. -/
theorem Vm.effects_cut {overlay : Overlay} {below : Lookup} {first : List Transaction}
    {before : List Effect} (ran : effects (overlay.onto below) first = before)
    (rest : List Transaction) :
    effects (overlay.onto below) (first ++ rest) =
      before ++ effects ((Overlay.merge (some overlay) before).onto below) rest := by
  rw [effects_append, ran, Overlay.merge_onto]

namespace Runner

variable {genesis : Snapshot} {overlay : Overlay} {effects : List Effect}

/-- Blocks run one after the other come to what all their transactions come to as one batch. -/
theorem foldlM_sequentialBlock {blocks : List Block}
    (ran : Vm.effects (overlay.onto genesis.view.get?) (blocks.flatMap Block.transactions) = effects)
    (tally : Tally) :
    blocks.foldlM (sequentialBlock genesis) (overlay, tally) =
      .ok (Overlay.merge (some overlay) effects, tally.counting effects blocks.length) := by
  induction blocks generalizing overlay tally effects with
  | nil =>
    subst ran
    simp only [List.flatMap_nil, Vm.effects, Overlay.merge, Overlay.ofEffects_nil,
      Overlay.extend_empty]
    rfl
  | cons block blocks ih =>
    rw [List.flatMap_cons, Vm.effects_cut rfl] at ran
    rw [List.foldlM_cons, sequentialBlock_eq rfl, ← ran]
    -- The other blocks run on what the first left pending, as the second part of a cut batch does.
    refine (ih rfl _).trans ?_
    rw [Overlay.merge_merge, Tally.counting_counting, List.length_cons, Nat.add_comm 1]

/-- A workload run one batch a block ends in what its transactions leave as one batch, and counts
how many of them that batch mines and fails. -/
theorem sequential_run (workload : Workload) :
    sequential.run workload = .ok
      (workload.genesis.apply (Overlay.ofEffects (Vm.effects workload.genesis.get? workload.stream)),
        ({} : Tally).counting (Vm.effects workload.genesis.get? workload.stream)
          workload.blocks.length) := by
  have ran : Vm.effects (Overlay.empty.onto workload.genesis.view.get?) workload.stream =
      Vm.effects workload.genesis.get? workload.stream := by
    rw [Overlay.empty_onto]
    rfl
  simp only [sequential, foldlM_sequentialBlock ran]
  change Except.ok (workload.genesis.apply (Overlay.empty.extend _), _) = _
  rw [Overlay.empty_extend]

/-- It makes no difference how a stream of transactions is cut. A batch may be cut in two at any
place if the second part runs on what the first one left pending. So a workload run one batch a
block ends in what its transactions come to as a single batch, and two workloads with the same
genesis state and the same transactions differ in nothing but how many blocks they count. -/
theorem sequential_blind_to_cuts :
    (∀ (base : StateView), (∀ key, base.trips key = false) →
      ∀ (overlay : Overlay) (first rest : List Transaction), ∃ effects later,
        Vm.execute first base overlay .quiet = (.ok effects, .quiet) ∧
        Vm.execute rest base (Overlay.merge (some overlay) effects) .quiet = (.ok later, .quiet) ∧
        Vm.execute (first ++ rest) base overlay .quiet = (.ok (effects ++ later), .quiet)) ∧
    (∀ workload : Workload, ∃ effects,
      Vm.execute workload.stream workload.genesis.view .empty .quiet = (.ok effects, .quiet) ∧
      sequential.run workload = .ok (workload.genesis.apply (Overlay.merge none effects),
        { successful := effects.countP fun effect => effect.status == .mined
          failed := effects.countP fun effect => effect.status == .failed
          blocks := workload.blocks.length })) ∧
    ∀ workload other : Workload, workload.genesis = other.genesis →
      workload.stream = other.stream → ∃ state tally,
        sequential.run workload = .ok (state, tally) ∧
        sequential.run other = .ok (state, { tally with blocks := other.blocks.length }) := by
  refine ⟨?_, ?_, ?_⟩
  · intro base calm overlay first rest
    refine ⟨_, _, Vm.execute_quiet calm first overlay, Vm.execute_quiet calm rest _, ?_⟩
    rw [Vm.execute_quiet calm, Vm.effects_cut rfl]
  · intro workload
    have ran := Vm.execute_quiet (fun _ => rfl : ∀ key, workload.genesis.view.trips key = false)
      workload.stream .empty
    rw [Overlay.empty_onto] at ran
    refine ⟨_, ran, ?_⟩
    rw [sequential_run, Overlay.merge]
    simp only [Tally.counting, Nat.zero_add, Option.getD_none, Overlay.empty_extend]
    rfl
  · intro workload other genesis stream
    refine ⟨_, _, sequential_run workload, ?_⟩
    rw [sequential_run other, ← genesis, ← stream]
    simp only [Tally.counting, Nat.zero_add]

end Runner

namespace Sample

def whole : Workload := ⟨[alice, bob], [⟨header, block⟩]⟩

def halves : Workload :=
  ⟨[alice, bob], [⟨header, [payCarol, stray]⟩, ⟨header, [payBob, nextRound]⟩]⟩

end Sample

theorem Runner.sample_blind_to_cuts :
    (∃ effects later,
      Vm.execute [Sample.payCarol, Sample.stray] Sample.spoiled.view .empty .quiet =
        (.ok effects, .quiet) ∧
      Vm.execute [Sample.payBob, Sample.nextRound] Sample.spoiled.view
        (Overlay.merge (some .empty) effects) .quiet = (.ok later, .quiet) ∧
      Vm.execute Sample.block Sample.spoiled.view .empty .quiet = (.ok (effects ++ later), .quiet)) ∧
    ∃ state tally,
      sequential.run Sample.whole = .ok (state, tally) ∧
      sequential.run Sample.halves = .ok (state, { tally with blocks := 2 }) := by
  obtain ⟨cut, _, alike⟩ := sequential_blind_to_cuts
  exact ⟨cut Sample.spoiled.view (fun _ => rfl) .empty _ _, alike Sample.whole Sample.halves rfl rfl⟩

end GroupedLedger
