import GroupedLedger.Proofs.Batches
import GroupedLedger.Proofs.Workers

namespace GroupedLedger

/-- Whether a group in a worker's hands was given to the executor. -/
def Worker.calls (group : Nat) (worker : Worker) : Nat :=
  if worker.called? = some group then 1 else 0

/-- Whether a worker is up and the answer in its hands, if any, is its group's own. -/
def Worker.Faithful (answer : Nat → Run) : Worker → Prop
  | .answered group run => run = answer group
  | .storing group run => run = answer group
  | .crashed => False
  | _ => True

namespace Pool

/-- A job that gives every group its own answer while the signal is down, raises no signal, and is
never fatal. -/
structure Steady (job : Nat → Token → Answer × Token) (answer : Nat → Run) : Prop where
  answers : ∀ group, job group .quiet = (.done (answer group), .quiet)
  calm : ∀ group, isFatal (answer group) = false

/-- What every interleaving keeps under such a job. -/
structure Faithful (answer : Nat → Run) (count : Nat) (pool : Pool) : Prop extends
    Accounted count pool where
  unsignalled : pool.signalled = false
  unhalted : pool.queue.halted = false
  workers : ∀ worker ∈ pool.workers, worker.Faithful answer
  slotted : ∀ group run, pool.slots[group]? = some (some run) → run = answer group
  called : ∀ group, pool.calls.count group =
    Worker.total (Worker.calls group) pool.workers + (pool.stored group).toNat
  spent : .stopped ∈ pool.workers → pool.queue.ready = []

variable {job : Nat → Token → Answer × Token} {answer : Nat → Run} {count : Nat}

theorem faithful_start (threads : Nat) (sizes : List Nat) :
    Faithful answer sizes.length (start threads sizes false) := by
  have hw : ∀ worker ∈ (start threads sizes false).workers, worker = .idle :=
    fun worker hm => List.eq_of_mem_replicate hm
  have hs : ∀ group, (start threads sizes false).stored group = false := by
    intro group
    simp only [stored, start, List.getElem?_replicate]
    split <;> rfl
  refine ⟨accounted_start threads sizes false, rfl, rfl, ?_, ?_, ?_, ?_⟩
  · intro worker hm
    rw [hw worker hm]
    trivial
  · intro group run hf
    have := hs group
    simp [stored, hf] at this
  · intro group
    rw [hs, Worker.total_eq_zero]
    · rfl
    · intro worker hm
      rw [hw worker hm]
      rfl
  · intro hm
    cases hw _ hm

theorem Faithful.up {pool : Pool} (h : Faithful answer count pool) : pool.hasCrashed = false := by
  refine hasCrashed_eq_false_iff.mpr fun worker hm => ?_
  have hf := h.workers worker hm
  cases worker with
  | crashed => exact hf.elim
  | _ => rfl

theorem Faithful.move {pool next : Pool} (h : Faithful answer count pool)
    (accounted : Accounted count next) {i : Nat} {place phase : Worker}
    (here : pool.workers[i]? = some place) (workers : next.workers = pool.workers.set i phase)
    (faithful : phase.Faithful answer) (slots : next.slots = pool.slots)
    (unsignalled : next.signalled = false) (unhalted : next.queue.halted = false)
    (called : ∀ group, next.calls.count group + place.calls group =
      pool.calls.count group + phase.calls group)
    (spent : phase = .stopped ∨ .stopped ∈ pool.workers → next.queue.ready = []) :
    Faithful answer count next := by
  refine ⟨accounted, unsignalled, unhalted, ?_, ?_, ?_, ?_⟩
  · intro worker hm
    rw [workers] at hm
    rcases List.mem_or_eq_of_mem_set hm with hm | rfl
    · exact h.workers worker hm
    · exact faithful
  · rw [slots]
    exact h.slotted
  · intro group
    have hc := called group
    have ht := Worker.total_set (Worker.calls group) here phase
    have ho := h.called group
    simp only [stored, slots, workers] at ho ⊢
    omega
  · intro hm
    rw [workers] at hm
    rcases List.mem_or_eq_of_mem_set hm with hm | he
    · exact spent (.inr hm)
    · exact spent (.inl he.symm)

theorem Faithful.store {pool : Pool} (h : Faithful answer count pool) {i group : Nat} {run : Run}
    (here : pool.workers[i]? = some (.storing group run))
    (accounted : Accounted count
      ({ pool with slots := pool.slots.set group (some run) }.move i .idle)) :
    Faithful answer count
      ({ pool with slots := pool.slots.set group (some run) }.move i .idle) := by
  have hm := List.mem_of_getElem? here
  obtain ⟨inside, empty, _, _⟩ := h.of_holds hm rfl
  have hi : group < pool.slots.length := h.slots ▸ inside
  refine ⟨accounted, h.unsignalled, h.unhalted, ?_, ?_, ?_, ?_⟩
  · intro worker hw
    rcases List.mem_or_eq_of_mem_set hw with hw | rfl
    · exact h.workers worker hw
    · trivial
  · intro other stored hs
    rcases eq_or_stored_of_set hs with ⟨rfl, rfl⟩ | before
    · exact h.workers _ hm
    · exact h.slotted other stored before
  · intro other
    have ht := Worker.total_set (Worker.calls other) here .idle
    have ho := h.called other
    have hs := stored_set pool hi run other
    change pool.calls.count other = Worker.total (Worker.calls other) (pool.workers.set i .idle) +
      (Pool.stored { pool with slots := pool.slots.set group (some run) } other).toNat
    simp only [hs, Worker.calls, Worker.called?, Worker.held?, Option.some.injEq, reduceCtorEq,
      if_false] at ht ho ⊢
    by_cases he : group = other
    · subst he
      simp only [empty, if_true, beq_self_eq_true, Bool.true_or, Bool.toNat_true,
        Bool.toNat_false] at ht ho ⊢
      omega
    · simp only [he, if_false, beq_eq_false_iff_ne.mpr he, Bool.false_or] at ht ⊢
      omega
  · intro hw
    rcases List.mem_or_eq_of_mem_set hw with hw | he
    · exact h.spent hw
    · cases he

/-- No step of a worker leaves a faithful pool, so no interleaving does. -/
theorem Faithful.step (steady : Steady job answer) {pool next : Pool}
    (h : Faithful answer count pool) (step : WorkerStep job pool next) :
    Faithful answer count next := by
  have own : ∀ group late, job group ⟨if pool.signalled then some late else none⟩ =
      (.done (answer group), .quiet) := by
    intro group late
    rw [h.unsignalled]
    exact steady.answers group
  have accounted : Accounted count next := by
    apply h.toAccounted.step step (step.stays_up ?_ h.up)
    intro group late
    rw [own]
    exact Answer.noConfusion
  obtain ⟨i, place, here, turn⟩ := step.turn
  have hm := List.mem_of_getElem? here
  have hf := h.workers place hm
  cases turn with
  | turnedAway halted =>
    rw [h.unhalted] at halted
    cases halted
  | admitted =>
    exact h.move accounted here rfl trivial rfl h.unsignalled h.unhalted (fun _ => rfl)
      (by rintro (he | hs); cases he; exact h.spent hs)
  | ranDry ready =>
    exact h.move accounted here rfl trivial rfl h.unsignalled h.unhalted (fun _ => rfl)
      (fun _ => ready)
  | took ready =>
    refine h.move accounted here rfl trivial rfl h.unsignalled h.unhalted (fun _ => rfl) ?_
    rintro (he | hs)
    · cases he
    · rw [h.spent hs] at ready
      cases ready
  | skipped signalled =>
    rw [h.unsignalled] at signalled
    cases signalled
  | called =>
    refine h.move accounted here rfl trivial rfl h.unsignalled h.unhalted ?_
      (by rintro (he | hs); cases he; exact h.spent hs)
    intro other
    simp only [move_calls, List.count_cons, Worker.calls, Worker.called?, Worker.held?,
      Option.some.injEq, reduceCtorEq, beq_iff_eq, if_false]
    omega
  | answered asked =>
    rw [own] at asked
    cases asked
    exact h.move accounted here rfl rfl rfl (by rw [move_signalled, h.unsignalled]; rfl)
      h.unhalted (fun _ => rfl)
      (by rintro (he | hs); cases he; exact h.spent hs)
  | crashed asked =>
    rw [own] at asked
    cases asked
  | @noted group run =>
    have hc : isFatal run = false := by
      rw [show run = answer group from hf]
      exact steady.calm group
    simp only [hc] at accounted ⊢
    exact h.move accounted here rfl hf rfl h.unsignalled h.unhalted (fun _ => rfl)
      (by rintro (he | hs); cases he; exact h.spent hs)
  | stored => exact h.store here accounted

theorem Faithful.reaches (steady : Steady job answer) {pool next : Pool}
    (h : Faithful answer count pool) (path : Reaches job pool next) :
    Faithful answer count next :=
  path.keeps (fun _ _ h step => h.step steady step) h

/-- A faithful pool at rest has every group's own answer, and has asked for each once. -/
theorem Faithful.finished {pool : Pool} (h : Faithful answer count pool) (rest : pool.AtRest)
    (manned : 0 < count → pool.workers ≠ []) :
    pool.calls.Perm (List.range count) ∧
      pool.slots = (List.range count).map (fun group => some (answer group)) ∧
      pool.queue.ready = [] := by
  have hs := rest.stopped h.up
  have held : ∀ group, Worker.total (Worker.holds group) pool.workers = 0 :=
    fun group => Worker.total_eq_zero fun worker hm => by rw [hs worker hm]; rfl
  have calling : ∀ group, Worker.total (Worker.calls group) pool.workers = 0 :=
    fun group => Worker.total_eq_zero fun worker hm => by rw [hs worker hm]; rfl
  -- Nothing halts the queue, so a worker stops only once the queue is empty.
  have ready : pool.queue.ready = [] := by
    rcases Nat.eq_zero_or_pos count with hz | hp
    · apply List.eq_nil_iff_forall_not_mem.mpr
      intro group hm
      have ho := h.once group
      have hc := List.count_pos_iff.mpr hm
      rw [if_neg (by omega), places] at ho
      omega
    · obtain ⟨worker, hm⟩ := List.exists_mem_of_ne_nil _ (manned hp)
      exact h.spent (hs worker hm ▸ hm)
  have hstored : ∀ group, (pool.stored group).toNat = if group < count then 1 else 0 := by
    intro group
    have ho := h.once group
    simpa [places, ready, held] using ho
  refine ⟨?_, ?_, ready⟩
  · apply List.perm_iff_count.mpr
    intro group
    rw [h.called, calling, hstored, List.count_range, Nat.zero_add]
  · apply List.ext_getElem
    · rw [h.slots, List.length_map, List.length_range]
    · intro group hl _
      have hg := hstored group
      have here := List.getElem?_eq_getElem hl
      rw [if_pos (h.slots ▸ hl), stored, here] at hg
      rw [List.getElem_map, List.getElem_range]
      cases hr : pool.slots[group] with
      | none => simp [hr] at hg
      | some run => rw [h.slotted group run (by rw [here, hr])]

theorem outcomes_congr {pool other : Pool} (up : pool.hasCrashed = false)
    (otherUp : other.hasCrashed = false) (slots : pool.slots = other.slots)
    (groups : List (List Transaction)) : pool.outcomes groups = other.outcomes groups := by
  simp only [outcomes, fatal?, up, otherUp, slots]

end Pool

namespace Engine

variable {engine : Engine} {base : StateView} {answer : List Transaction → Overlay → Run}

def job (engine : Engine) (groups : List (List Transaction)) (base : StateView) (overlay : Overlay)
    (group : Nat) (token : Token) : Answer × Token :=
  engine.executor.execute (.group group) (groups.getD group []) base overlay token

theorem steady_job (steady : engine.executor.Steady base answer)
    (groups : List (List Transaction)) (overlay : Overlay) :
    Pool.Steady (engine.job groups base overlay) fun group =>
      answer (groups.getD group []) overlay :=
  ⟨fun _ => steady.answers _ _ _, fun _ => steady.calm _ _⟩

/-- Every interleaving that ends with all workers at rest ends alike. -/
theorem finished_of_reaches (steady : engine.executor.Steady base answer) (threads : Nat)
    (groups : List (List Transaction)) (overlay : Overlay) {pool : Pool}
    (path : Pool.Reaches (engine.job groups base overlay)
      (Pool.start threads (groups.map List.length) false) pool) (rest : pool.AtRest) :
    pool.hasCrashed = false ∧ pool.calls.Perm (List.range groups.length) ∧
      pool.slots = groups.map (fun group => some (answer group overlay)) ∧
      pool.queue.ready = [] := by
  have hf := Pool.Faithful.reaches (steady_job steady groups overlay)
    (Pool.faithful_start threads (groups.map List.length)) path
  rw [List.length_map] at hf
  have manned : 0 < groups.length → pool.workers ≠ [] := by
    intro hp he
    have hl := path.length_workers
    simp only [Pool.start, he, List.length_nil, List.length_replicate, List.length_map] at hl
    omega
  obtain ⟨calls, slots, ready⟩ := hf.finished rest manned
  refine ⟨hf.up, calls, ?_, ready⟩
  rw [slots]
  apply List.ext_getElem
  · simp
  · intro group hl _
    have hg : group < groups.length := by simpa using hl
    simp [List.getD_eq_getElem?_getD, List.getElem?_eq_getElem hg]

theorem groupPhase_reaches (engine : Engine) (groups : List (List Transaction)) (base : StateView)
    (overlay : Overlay) {events : List Event} (quiet : .signal ∉ events) :
    Pool.Reaches (engine.job groups base overlay)
      (Pool.start engine.threads (groups.map List.length) false)
      (engine.groupPhase groups base overlay false events) :=
  Pool.run_reaches _ quiet

theorem groupPhase_atRest (engine : Engine) (groups : List (List Transaction)) (base : StateView)
    (overlay : Overlay) (signalled : Bool) (events : List Event) :
    (engine.groupPhase groups base overlay signalled events).AtRest :=
  Pool.run_atRest _ events

/-- The outcomes of a block's groups depend neither on the interleaving nor on the workers. -/
theorem groupPhase_outcomes (steady : engine.executor.Steady base answer) (threads : Nat)
    (groups : List (List Transaction)) (overlay : Overlay) {pool : Pool}
    (path : Pool.Reaches (engine.job groups base overlay)
      (Pool.start threads (groups.map List.length) false) pool) (rest : pool.AtRest) :
    pool.outcomes groups =
      (({ engine with threads := 1 } : Engine).groupPhase groups base overlay false []).outcomes
        groups := by
  obtain ⟨up, _, slots, _⟩ := finished_of_reaches steady threads groups overlay path rest
  have quiet : Event.signal ∉ [] := List.not_mem_nil
  obtain ⟨oneUp, _, oneSlots, _⟩ := finished_of_reaches steady 1 groups overlay
    (groupPhase_reaches { engine with threads := 1 } groups base overlay quiet)
    (groupPhase_atRest _ _ _ _ _ _)
  exact Pool.outcomes_congr up oneUp (slots.trans oneSlots.symm) groups

theorem serialPhase_quiet (steady : engine.executor.Steady base answer)
    (transactions : List Transaction) (prior : Option Overlay) :
    (engine.serialPhase transactions base prior .quiet).2 = .quiet := by
  simp only [serialPhase]
  split
  · rfl
  · rw [steady.answers]
    cases answer transactions (prior.getD .empty) with
    | ok effects => rfl
    | error error => cases error <;> rfl

/-- However many workers there are and whoever steps next: every group is given to the executor
once, its slot gets its own answer, nothing stays queued, and the block is what a single worker
makes of it. -/
theorem execute_schedule_independent (engine : Engine) (base : StateView)
    (answer : List Transaction → Overlay → Run) (steady : engine.executor.Steady base answer) :
    (∀ groups overlay pool, groups ≠ [] →
      Pool.Reaches (engine.job groups base overlay)
        (Pool.start engine.threads (groups.map List.length) false) pool →
      pool.AtRest →
        pool.calls.Perm (List.range groups.length) ∧
        pool.slots = groups.map (fun group => some (answer group overlay)) ∧
        pool.queue.ready = [] ∧
        pool.outcomes groups =
          (({ engine with threads := 1 } : Engine).groupPhase groups base overlay false
            []).outcomes groups) ∧
    ∀ transactions header prior events, .signal ∉ events →
      engine.execute transactions header base prior .quiet events =
        ({ engine with threads := 1 } : Engine).execute transactions header base prior .quiet := by
  constructor
  · intro groups overlay pool _ path rest
    obtain ⟨_, calls, slots, ready⟩ := finished_of_reaches steady _ groups overlay path rest
    exact ⟨calls, slots, ready, groupPhase_outcomes steady _ groups overlay path rest⟩
  · intro transactions header prior events quiet
    have hp : ({ engine with threads := 1 } : Engine).partition header transactions =
        engine.partition header transactions := rfl
    have hs : ({ engine with threads := 1 } : Engine).serialPhase
        (engine.partition header transactions).serial base prior .quiet =
          engine.serialPhase (engine.partition header transactions).serial base prior .quiet := rfl
    rw [execute_of_down Token.poll_quiet, execute_of_down Token.poll_quiet, hp]
    cases (engine.partition header transactions).fault? (transactions.map Transaction.id) with
    | some fault => rfl
    | none =>
      have hq := serialPhase_quiet steady (engine.partition header transactions).serial prior
      simp only [hs]
      rcases he : engine.serialPhase (engine.partition header transactions).serial base prior .quiet
        with ⟨outcome, left⟩
      rw [he] at hq
      cases outcome with
      | error error => rfl
      | ok serial =>
        subst hq
        simp only [Token.raised_quiet]
        rw [groupPhase_outcomes steady _ _ _ (groupPhase_reaches engine _ base _ quiet)
          (groupPhase_atRest engine _ base _ _ _)]

theorem sample_schedule_independent :
    let groups := [[Sample.payBob], [Sample.payCarol]]
    let events := [Event.step 1 0, .step 0 0, .step 1 0]
    let pool := Sample.engine.groupPhase groups Sample.genesis.view .empty false events
    pool.calls.Perm [0, 1] ∧ pool.queue.ready = [] ∧
      Sample.engine.execute Sample.block Sample.header Sample.genesis.view none .quiet events =
        ({ Sample.engine with threads := 1 } : Engine).execute Sample.block Sample.header
          Sample.genesis.view none .quiet := by
  intro groups events pool
  have steady : Sample.engine.executor.Steady Sample.genesis.view _ :=
    Executor.contracts_steady fun _ => rfl
  have quiet : Event.signal ∉ events := by decide
  obtain ⟨phase, block⟩ := execute_schedule_independent _ _ _ steady
  obtain ⟨calls, _, ready, _⟩ := phase groups .empty pool (List.cons_ne_nil _ _)
    (groupPhase_reaches _ _ _ _ quiet) (groupPhase_atRest _ _ _ _ _ _)
  exact ⟨calls, ready, block _ _ _ _ quiet⟩

end Engine
end GroupedLedger
