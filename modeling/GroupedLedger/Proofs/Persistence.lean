import GroupedLedger.Proofs.ContractBlocks
import GroupedLedger.Runner

namespace GroupedLedger

/-- A persisted state and what is pending on it, if anything. -/
structure Ledger where
  base : Snapshot
  pending : Option Overlay

/-- What happens to a ledger: a block is executed on it, the workers being interleaved by the
events, or what is pending is persisted. -/
inductive Move where
  | execute (block : Block) (events : List Event)
  | persist

namespace Move

def executes : Move → Bool
  | .execute .. => true
  | .persist => false

/-- Nobody raises the signal. -/
def Quiet : Move → Prop
  | .execute _ events => .signal ∉ events
  | .persist => True

end Move

namespace Ledger

/-- The state as seen through what is pending. -/
def state (ledger : Ledger) : Snapshot := ledger.pending.elim ledger.base ledger.base.apply

def persist (ledger : Ledger) : Ledger := ⟨ledger.state, none⟩

def outcome (ledger : Ledger) (engine : Engine) (block : Block) (events : List Event) :
    Except BlockError BlockResult :=
  engine.execute block.transactions block.header ledger.base.view ledger.pending .quiet events

/-- The ledger after a block. A block without a result leaves nothing. -/
def after (ledger : Ledger) : Except BlockError BlockResult → Ledger
  | .ok result => { ledger with pending := some (result.overlay ledger.pending) }
  | .error _ => ledger

/-- Follows the moves: what the blocks came to, in order, and the ledger in the end. -/
def run (engine : Engine) (ledger : Ledger) :
    List Move → List (Except BlockError BlockResult) × Ledger
  | [] => ([], ledger)
  | .execute block events :: rest =>
    let outcome := ledger.outcome engine block events
    let (outcomes, last) := (ledger.after outcome).run engine rest
    (outcome :: outcomes, last)
  | .persist :: rest => ledger.persist.run engine rest

theorem state_eq (ledger : Ledger) :
    ledger.state = ledger.base.apply (ledger.pending.getD .empty) := by
  rcases ledger with ⟨base, _ | pending⟩
  · exact base.apply_empty.symm
  · rfl

theorem get?_state (ledger : Ledger) :
    ledger.state.get? = (ledger.pending.getD .empty).onto ledger.base.view.get? := by
  rw [state_eq, Snapshot.get?_apply]
  rfl

theorem state_after (ledger : Ledger) (result : BlockResult) :
    (ledger.after (.ok result)).state = ledger.state.apply (.ofEffects result.effects) := by
  rw [state_eq ledger, Snapshot.apply_apply]
  rfl

theorem state_after_congr {ledger other : Ledger} (same : ledger.state = other.state)
    (outcome : Except BlockError BlockResult) :
    (ledger.after outcome).state = (other.after outcome).state := by
  cases outcome with
  | ok result => rw [state_after, state_after, same]
  | error error => exact same

end Ledger

namespace Engine

variable {engine : Engine} {transactions : List Transaction} {header : Header}
  {base other : StateView} {prior earlier : Option Overlay} {events turns : List Event}

/-- A block of contract calls that nobody interrupts sees nothing of a state but what is found in it
through what is pending. -/
theorem execute_congr (contracts : engine.executor = .contracts)
    (calm : ∀ key, base.trips key = false) (calmToo : ∀ key, other.trips key = false)
    (quiet : .signal ∉ events) (quietToo : .signal ∉ turns)
    (same : (prior.getD .empty).onto base.get? = (earlier.getD .empty).onto other.get?) :
    engine.execute transactions header base prior .quiet events =
      engine.execute transactions header other earlier .quiet turns := by
  cases valid : (engine.partition header transactions).fault?
      (transactions.map Transaction.id) with
  | some fault => rw [execute_of_down Token.poll_quiet, execute_of_down Token.poll_quiet, valid]
  | none =>
    rw [execute_contracts contracts calm quiet valid,
      execute_contracts contracts calmToo quietToo valid]
    simp only [Overlay.merge, ← Overlay.onto_onto, same]

end Engine

namespace Ledger

variable {engine : Engine} {ledger other : Ledger}

theorem outcome_congr (contracts : engine.executor = .contracts)
    (same : ledger.state = other.state) (block : Block) {events turns : List Event}
    (quiet : .signal ∉ events) (quietToo : .signal ∉ turns) :
    ledger.outcome engine block events = other.outcome engine block turns := by
  refine Engine.execute_congr contracts (fun _ => rfl) (fun _ => rfl) quiet quietToo ?_
  rw [← get?_state, ← get?_state, same]

/-- The state that blocks with results leave is what their effects leave, in order, of the state
that the first one found. -/
theorem state_run {moves : List Move} {results : List BlockResult} {last : Ledger}
    (ran : ledger.run engine moves = (results.map .ok, last)) :
    last.state = ledger.state.apply (.ofEffects (results.flatMap BlockResult.effects)) := by
  induction moves generalizing ledger results with
  | nil =>
    obtain ⟨none, rfl⟩ := Prod.mk.inj ran
    rw [List.map_eq_nil_iff.mp none.symm]
    exact ledger.state.apply_empty.symm
  | cons move rest ih =>
    cases move with
    | persist => exact @ih ledger.persist results ran
    | execute block events =>
      obtain ⟨outcomes, rfl⟩ := Prod.mk.inj ran
      cases results with
      | nil => cases outcomes
      | cons result results =>
        obtain ⟨here, later⟩ := List.cons.inj outcomes
        have found := @ih (ledger.after (.ok result)) results (Prod.ext (here ▸ later) (by rw [here]))
        rw [found, state_after, Snapshot.apply_apply, List.flatMap_cons, Overlay.ofEffects_append]

/-- Two ledgers with one state go on alike, also if only one of them is persisted now and then. -/
theorem run_congr (contracts : engine.executor = .contracts) {moves : List Move}
    (quiet : ∀ move ∈ moves, move.Quiet) (same : ledger.state = other.state) :
    (ledger.run engine moves).1 = (other.run engine (moves.filter Move.executes)).1 ∧
      (ledger.run engine moves).2.state =
        (other.run engine (moves.filter Move.executes)).2.state := by
  induction moves generalizing ledger other with
  | nil => exact ⟨rfl, same⟩
  | cons move rest ih =>
    obtain ⟨now, later⟩ := List.forall_mem_cons.mp quiet
    cases move with
    | persist =>
      have persisted : ledger.persist.state = other.state := same
      exact ih later persisted
    | execute block events =>
      have outcome := outcome_congr contracts same block now now
      obtain ⟨outcomes, last⟩ := ih later
        (state_after_congr same (ledger.outcome engine block events))
      rw [List.filter_cons_of_pos rfl]
      simp only [run]
      rw [← outcome]
      exact ⟨congrArg _ outcomes, last⟩

end Ledger

def Tally.taking (tally : Tally) (result : BlockResult) : Tally where
  successful := tally.successful + result.countStatus .mined
  failed := tally.failed + result.countStatus .failed
  conflicted := tally.conflicted + result.conflicting
  blocks := tally.blocks + 1
  groups := tally.groups + result.groups
  conflictingGroups := tally.conflictingGroups + result.conflictingGroups

namespace Runner

variable {engine : Engine} {turns : Nat → List Nat} {genesis : Snapshot}

def moves (turns : Nat → List Nat) (first : Nat) (blocks : List Block) : List Move :=
  (blocks.zipIdx first).map fun entry => .execute entry.1 ((turns entry.2).map (Event.step · 0))

theorem quiet_of_mem_moves {first : Nat} {blocks : List Block} {move : Move}
    (mem : move ∈ moves turns first blocks) : move.Quiet := by
  obtain ⟨entry, _, rfl⟩ := List.mem_map.mp mem
  simp [Move.Quiet]

theorem groupedBlock_eq {block : Block} {overlay : Option Overlay} {tally : Tally}
    {result : BlockResult}
    (ran : engine.execute block.transactions block.header genesis.view overlay .quiet
      ((turns tally.blocks).map (Event.step · 0)) = .ok result) :
    groupedBlock engine turns genesis (overlay, tally) block =
      .ok (some (result.overlay overlay), tally.taking result) := by
  simp only [groupedBlock, ran]
  rfl

/-- Running a chain by groups comes, block by block, to what its ledger comes to. It hands on what
the ledger has pending, and counts each result. -/
theorem run_of_foldlM {blocks : List Block} {overlay last : Option Overlay} {tally total : Tally}
    (ran : blocks.foldlM (groupedBlock engine turns genesis) (overlay, tally) = .ok (last, total)) :
    ∃ results : List BlockResult,
      (⟨genesis, overlay⟩ : Ledger).run engine (moves turns tally.blocks blocks) =
        (results.map .ok, ⟨genesis, last⟩) ∧
      total = results.foldl Tally.taking tally := by
  induction blocks generalizing overlay tally with
  | nil =>
    cases ran
    exact ⟨[], rfl, rfl⟩
  | cons block rest ih =>
    rw [List.foldlM_cons] at ran
    cases executed : engine.execute block.transactions block.header genesis.view overlay .quiet
        ((turns tally.blocks).map (Event.step · 0)) with
    | error error =>
      simp only [groupedBlock, executed] at ran
      cases ran
    | ok result =>
      rw [groupedBlock_eq executed] at ran
      obtain ⟨results, followed, counted⟩ := @ih _ (tally.taking result) ran
      have outcome : (⟨genesis, overlay⟩ : Ledger).outcome engine block
          ((turns tally.blocks).map (Event.step · 0)) = .ok result := executed
      refine ⟨result :: results, ?_, counted⟩
      have next : (((⟨genesis, overlay⟩ : Ledger).after (.ok result)).run engine
          (moves turns (tally.blocks + 1) rest)) = (results.map .ok, ⟨genesis, last⟩) := followed
      rw [moves, List.zipIdx_cons, List.map_cons, Ledger.run, outcome, ← moves, next]
      rfl

theorem run_of_grouped {threads : Nat} {grouper : Grouper} {workload : Workload} {state : Snapshot}
    {tally : Tally} (ran : (grouped threads grouper turns).run workload = .ok (state, tally)) :
    ∃ (results : List BlockResult) (last : Ledger),
      (⟨workload.genesis, none⟩ : Ledger).run ⟨threads, grouper, .contracts⟩
          (moves turns 0 workload.blocks) = (results.map .ok, last) ∧
      last.state = state ∧ tally = results.foldl Tally.taking {} := by
  simp only [grouped] at ran
  cases folded : workload.blocks.foldlM
      (groupedBlock ⟨threads, grouper, .contracts⟩ turns workload.genesis) (none, {}) with
  | error error =>
    rw [folded] at ran
    cases ran
  | ok last =>
    rw [folded] at ran
    cases ran
    obtain ⟨results, followed, counted⟩ := run_of_foldlM folded
    exact ⟨results, _, followed, rfl, counted⟩

end Runner

namespace Engine

/-- A block of contract calls comes to the same whether what was pending is still pending or was
persisted, and leaves the same state. So a chain of such blocks comes to the same, block by block
and in its final state, wherever it is persisted on the way. -/
theorem execute_blind_to_persistence (engine : Engine) (contracts : engine.executor = .contracts) :
    (∀ (transactions : List Transaction) (header : Header) (base : Snapshot) (pending : Overlay)
        (events turns : List Event), .signal ∉ events → .signal ∉ turns →
      engine.execute transactions header base.view (some pending) .quiet events =
          engine.execute transactions header (base.apply pending).view none .quiet turns ∧
        ∀ result : BlockResult, base.apply (result.overlay (some pending)) =
          (base.apply pending).apply (result.overlay none)) ∧
    ∀ (ledger : Ledger) (moves : List Move), (∀ move ∈ moves, move.Quiet) →
      (ledger.run engine moves).1 = (ledger.run engine (moves.filter Move.executes)).1 ∧
        (ledger.run engine moves).2.state =
          (ledger.run engine (moves.filter Move.executes)).2.state := by
  constructor
  · intro transactions header base pending events turns quiet quietToo
    have same : (⟨base, some pending⟩ : Ledger).state = (⟨base.apply pending, none⟩ : Ledger).state :=
      rfl
    refine ⟨Ledger.outcome_congr contracts same ⟨header, transactions⟩ quiet quietToo, ?_⟩
    exact fun result => Ledger.state_after_congr same (.ok result)
  · exact fun ledger moves quiet => Ledger.run_congr contracts quiet rfl

/-- What is pending hides what Bob has, and once persisted there is nothing to hide. -/
theorem sample_blind_to_persistence :
    let pending := Overlay.empty.delete (.balance Sample.bob)
    let ledger : Ledger := ⟨Sample.genesis, some pending⟩
    let block : Block := ⟨Sample.header, Sample.block⟩
    (∃ result,
      Sample.engine.execute Sample.block Sample.header Sample.genesis.view (some pending) .quiet
        [.step 1 0] = .ok result ∧
      Sample.engine.execute Sample.block Sample.header (Sample.genesis.apply pending).view none .quiet
        [] = .ok result) ∧
    (ledger.run Sample.engine [.execute block [.step 1 0], .persist, .execute block []]).2.state =
      (ledger.run Sample.engine [.execute block [.step 1 0], .execute block []]).2.state := by
  intro pending ledger block
  obtain ⟨blocks, chains⟩ := execute_blind_to_persistence Sample.engine rfl
  constructor
  · have quiet : Event.signal ∉ [Event.step 1 0] := by decide
    have calm : ∀ key, Sample.genesis.view.trips key = false := fun _ => rfl
    obtain ⟨result, ran⟩ := exists_result_contracts rfl calm quiet Sample.partition_fault
    obtain ⟨same, _⟩ := blocks Sample.block Sample.header Sample.genesis pending [.step 1 0] [] quiet
      List.not_mem_nil
    exact ⟨result, ran, same ▸ ran⟩
  · refine (chains ledger [.execute block [.step 1 0], .persist, .execute block []] ?_).2
    simp [Move.Quiet]

end Engine

/-- A runner may persist what is pending after any of its blocks, and ends in the same state. -/
theorem Runner.grouped_persisted {threads : Nat} {grouper : Grouper} {turns : Nat → List Nat}
    {workload : Workload} {state : Snapshot} {tally : Tally}
    (ran : (grouped threads grouper turns).run workload = .ok (state, tally)) {chain : List Move}
    (blocks : chain.filter Move.executes = moves turns 0 workload.blocks) :
    ((⟨workload.genesis, none⟩ : Ledger).run ⟨threads, grouper, .contracts⟩ chain).2.state =
      state := by
  have quiet : ∀ move ∈ chain, move.Quiet := by
    intro move mem
    cases move with
    | persist => trivial
    | execute block events =>
      exact quiet_of_mem_moves (blocks ▸ List.mem_filter.mpr ⟨mem, rfl⟩)
  obtain ⟨results, last, followed, ended, _⟩ := run_of_grouped ran
  rw [(Ledger.run_congr rfl quiet rfl).2, blocks, followed, ended]

end GroupedLedger
