import GroupedLedger.Proofs.Answers
import GroupedLedger.Proofs.Failures

namespace GroupedLedger

namespace Pool

variable {job : Nat → Token → Answer × Token} {order : List Nat} {pool : Pool}

/-- The executor's answer to a group is fatal while the signal is down. -/
def Fails (job : Nat → Token → Answer × Token) (group : Nat) (reason : String) : Prop :=
  (job group .quiet).1 = .done (.error (.fatal reason))

def Calm (job : Nat → Token → Answer × Token) (groups : List Nat) : Prop :=
  ∀ group ∈ groups, ∀ reason, ¬ Fails job group reason

/-- How far a lone worker has got through the groups in order: which it gave to the executor, the
last one first, and which are queued. -/
inductive Stage (job : Nat → Token → Answer × Token) (order : List Nat) :
    Worker → WorkQueue → List Nat → Prop where
  | between {worker : Worker} {calls ready : List Nat} (free : worker = .idle ∨ worker = .admitted)
      (calm : Calm job calls) (listed : order = calls.reverse ++ ready) :
      Stage job order worker ⟨ready, false⟩ calls
  | holding {group : Nat} {calls ready : List Nat} (calm : Calm job calls)
      (listed : order = calls.reverse ++ group :: ready) :
      Stage job order (.holding group) ⟨ready, false⟩ calls
  | running {group : Nat} {calls ready : List Nat} (calm : Calm job calls)
      (listed : order = calls.reverse ++ group :: ready) :
      Stage job order (.running group) ⟨ready, false⟩ (group :: calls)
  | answered {group : Nat} {run : Run} {calls ready : List Nat} (calm : Calm job calls)
      (listed : order = calls.reverse ++ group :: ready) (own : (job group .quiet).1 = .done run) :
      Stage job order (.answered group run) ⟨ready, false⟩ (group :: calls)
  | storing {group : Nat} {run : Run} {calls ready : List Nat} (calm : Calm job calls)
      (listed : order = calls.reverse ++ group :: ready) (own : (job group .quiet).1 = .done run) :
      Stage job order (.storing group run) ⟨ready, isFatal run⟩ (group :: calls)
  | halted {worker : Worker} {group : Nat} {reason : String} {calls ready : List Nat}
      (free : worker = .idle ∨ worker = .stopped) (calm : Calm job calls)
      (listed : order = calls.reverse ++ group :: ready) (fails : Fails job group reason) :
      Stage job order worker ⟨ready, true⟩ (group :: calls)
  | finished {calls : List Nat} (calm : Calm job calls) (listed : order = calls.reverse) :
      Stage job order .stopped ⟨[], false⟩ calls

/-- A worker that has stored an answer goes on unless the answer was fatal. -/
theorem Stage.stored {group : Nat} {run : Run} {calls ready : List Nat} (calm : Calm job calls)
    (listed : order = calls.reverse ++ group :: ready) (own : (job group .quiet).1 = .done run) :
    Stage job order .idle ⟨ready, isFatal run⟩ (group :: calls) := by
  cases hf : isFatal run with
  | true =>
    obtain ⟨reason, rfl⟩ := isFatal_iff.mp hf
    exact .halted (.inl rfl) calm listed own
  | false =>
    refine .between (.inl rfl) ?_ (by simpa using listed)
    intro other hm reason fails
    rcases List.mem_cons.mp hm with rfl | hm
    · rw [Fails, own] at fails
      cases fails
      cases hf
    · exact calm other hm reason fails

/-- A pool with one worker and no signal. Only groups that were given to the executor have their
slots filled, and with the executor's answers. -/
structure Alone (job : Nat → Token → Answer × Token) (order : List Nat) (pool : Pool) : Prop extends
    Truthful (fun group run => (job group .quiet).1 = .done run) pool where
  unsignalled : pool.signalled = false
  stage : ∃ worker, pool.workers = [worker] ∧ Stage job order worker pool.queue pool.calls
  asked : ∀ group, pool.stored group = true → group ∈ pool.calls

theorem alone_start {threads : Nat} {sizes : List Nat}
    (one : (start threads sizes false).workers.length = 1) :
    Alone job (WorkQueue.order sizes) (start threads sizes false) := by
  refine ⟨truthful_start threads sizes false, rfl, ⟨.idle, ?_, .between (.inl rfl) nofun rfl⟩, ?_⟩
  · rw [start, List.length_replicate] at one
    rw [start, one]
    rfl
  · intro group stored
    simp only [Pool.stored, start, List.getElem?_replicate] at stored
    split at stored <;> cases stored

theorem Alone.move {next : Pool} (h : Alone job order pool)
    (truthful : Truthful (fun group run => (job group .quiet).1 = .done run) next)
    {place phase : Worker} (lone : pool.workers = [place])
    (workers : next.workers = pool.workers.set 0 phase) (slots : next.slots = pool.slots)
    (unsignalled : next.signalled = false) (stage : Stage job order phase next.queue next.calls)
    (calls : pool.calls ⊆ next.calls) : Alone job order next := by
  refine ⟨truthful, unsignalled, ⟨phase, by rw [workers, lone]; rfl, stage⟩, ?_⟩
  intro group stored
  rw [Pool.stored, slots] at stored
  exact calls (h.asked group stored)

theorem Alone.step {next : Pool} (h : Alone job order pool)
    (up : ∀ group, (job group .quiet).1 ≠ .crashed)
    (silent : ∀ group, (job group .quiet).2.raised = false) (step : WorkerStep job pool next) :
    Alone job order next := by
  have quiet : ∀ late, (⟨if pool.signalled then some late else none⟩ : Token) = .quiet := by
    intro late
    rw [h.unsignalled]
    rfl
  have truthful := h.toTruthful.step (fun raised => by rw [h.unsignalled] at raised; cases raised)
    (fun group late run asked => by rwa [quiet late] at asked) step
  obtain ⟨i, late, here, active⟩ := step
  rename_i place
  obtain ⟨worker, lone, stage⟩ := h.stage
  obtain ⟨rfl, rfl⟩ : i = 0 ∧ worker = place := by
    rw [lone] at here
    cases i with
    | zero => exact ⟨rfl, Option.some.inj here⟩
    | succ i => cases here
  generalize hq : pool.queue = queue at stage
  generalize hc : pool.calls = calls at stage
  cases stage with
  | between free calm listed =>
    rcases free with rfl | rfl
    · simp only [stepFrom, hq] at truthful ⊢
      refine h.move truthful lone rfl rfl h.unsignalled ?_ (List.Subset.refl _)
      simpa only [move_queue, move_calls, hq, hc] using .between (.inr rfl) calm listed
    · rename_i ready
      cases ready with
      | nil =>
        simp only [stepFrom, WorkQueue.take, hq] at truthful ⊢
        refine h.move truthful lone rfl rfl h.unsignalled ?_ (List.Subset.refl _)
        simpa only [move_queue, move_calls, hq, hc] using
          .finished calm (by rw [listed, List.append_nil])
      | cons group ready =>
        simp only [stepFrom, WorkQueue.take, hq] at truthful ⊢
        refine h.move truthful lone rfl rfl h.unsignalled ?_ (List.Subset.refl _)
        simpa only [move_queue, move_calls, hc] using .holding calm listed
  | holding calm listed =>
    simp only [stepFrom, h.unsignalled, Bool.false_eq_true, if_false] at truthful ⊢
    refine h.move truthful lone rfl rfl rfl ?_ (List.subset_cons_self _ _)
    simpa only [move_queue, move_calls, hq, hc] using .running calm listed
  | @running group _ _ calm listed =>
    rcases asked : job group .quiet with ⟨answer, token⟩
    have raised := silent group
    rw [asked] at raised
    cases answer with
    | crashed => exact absurd (congrArg Prod.fst asked) (up group)
    | done run =>
      simp only [stepFrom, quiet, asked] at truthful ⊢
      refine h.move truthful lone rfl rfl ?_ ?_ (List.Subset.refl _)
      · rw [move_signalled, h.unsignalled, raised]
        rfl
      · simpa only [move_queue, move_calls, hq, hc] using
          .answered calm listed (congrArg Prod.fst asked)
  | @answered group run calls ready calm listed own =>
    refine h.move truthful lone rfl rfl h.unsignalled ?_ (List.Subset.refl _)
    have halted : (if isFatal run then (⟨ready, false⟩ : WorkQueue).halt else ⟨ready, false⟩) =
        ⟨ready, isFatal run⟩ := by
      cases isFatal run <;> rfl
    simpa only [stepFrom, move_queue, move_calls, hq, hc, halted] using .storing calm listed own
  | @storing group run calls ready calm listed own =>
    refine ⟨truthful, h.unsignalled, ⟨.idle, by rw [stepFrom, move_workers, lone]; rfl, ?_⟩, ?_⟩
    · simpa only [stepFrom, move_queue, move_calls, hq, hc] using .stored calm listed own
    · intro other stored
      change other ∈ pool.calls
      by_cases he : group = other
      · rw [hc, he]
        exact List.mem_cons_self
      · apply h.asked
        simpa only [stepFrom, Pool.stored, move_slots, List.getElem?_set_ne he] using stored
  | halted free calm listed fails =>
    rcases free with rfl | rfl
    · simp only [stepFrom, hq] at truthful ⊢
      refine h.move truthful lone rfl rfl h.unsignalled ?_ (List.Subset.refl _)
      simpa only [move_queue, move_calls, hq, hc] using .halted (.inr rfl) calm listed fails
    · cases active
  | finished calm listed => cases active

/-- A lone worker at rest has asked for all groups and none failed, or it has halted the queue and
asked no further than the first group that failed. -/
theorem Alone.ended (h : Alone job order pool) (rest : pool.AtRest) :
    pool.queue.halted = false ∧ pool.calls.reverse = order ∧ Calm job order ∨
      pool.queue.halted = true ∧ ∃ before group after, order = before ++ group :: after ∧
        Calm job before ∧ (∃ reason, Fails job group reason) ∧
        pool.calls.reverse = before ++ [group] := by
  obtain ⟨worker, lone, stage⟩ := h.stage
  have inactive : worker.active = false := rest worker (by rw [lone]; exact List.mem_singleton_self _)
  generalize pool.queue = queue at stage
  generalize pool.calls = calls at stage
  cases stage with
  | between free => rcases free with rfl | rfl <;> cases inactive
  | halted _ calm listed fails =>
    refine .inr ⟨rfl, _, _, _, listed, ?_, ⟨_, fails⟩, List.reverse_cons⟩
    exact fun group hm => calm group (List.mem_reverse.mp hm)
  | finished calm listed =>
    refine .inl ⟨rfl, listed.symm, ?_⟩
    rw [listed]
    exact fun group hm => calm group (List.mem_reverse.mp hm)
  | _ => cases inactive

/-- A group for which a lone worker has stored a fatal answer is the first that fails, and the last
that the executor was asked for. -/
theorem Alone.first_fails (h : Alone job order pool) (rest : pool.AtRest) {group : Nat}
    {reason : String} (failed : pool.FailedAt group reason) :
    ∃ before after, order = before ++ group :: after ∧ Calm job before ∧ Fails job group reason ∧
      pool.calls.reverse = before ++ [group] := by
  have called := List.mem_reverse.mpr (h.asked group failed.stored)
  have fails : Fails job group reason := h.stored group _ failed
  rcases h.ended rest with ⟨_, calls, calm⟩ | ⟨_, before, first, after, split, calm, _, calls⟩
  · exact absurd fails (calm group (calls ▸ called) reason)
  · rw [calls, List.mem_append, List.mem_singleton] at called
    rcases called with earlier | rfl
    · exact absurd fails (calm group earlier reason)
    · exact ⟨before, after, split, calm, fails, calls⟩

theorem Alone.halted_of_fails (h : Alone job order pool) (rest : pool.AtRest) {group : Nat}
    {reason : String} (queued : group ∈ order) (fails : Fails job group reason) :
    pool.queue.halted = true := by
  rcases h.ended rest with ⟨_, _, calm⟩ | ⟨halted, _⟩
  · exact absurd fails (calm group queued reason)
  · exact halted

end Pool

namespace Engine

variable {engine : Engine} {base : StateView} {events : List Event}

theorem alone_groupPhase (up : engine.executor.StaysUp base) (silent : engine.executor.Silent base)
    {groups : List (List Transaction)} {overlay : Overlay} {signalled : Bool}
    (down : signalled = false) (quiet : .signal ∉ events)
    (one : (engine.groupPhase groups base overlay signalled events).workers.length = 1) :
    Pool.Alone (engine.job groups base overlay) (WorkQueue.order (groups.map List.length))
      (engine.groupPhase groups base overlay signalled events) := by
  subst down
  have start : Pool.Alone (engine.job groups base overlay)
      (WorkQueue.order (groups.map List.length))
      (Pool.start engine.threads (groups.map List.length) false) := by
    apply Pool.alone_start
    rw [length_workers_groupPhase] at one
    simpa [Pool.start] using one
  refine (groupPhase_reaches engine groups base overlay quiet).keeps (fun _ _ h step => ?_) start
  exact h.step (fun group => up (.group group) (groups.getD group []) overlay .quiet)
    (fun group => silent (.group group) (groups.getD group []) overlay) step

/-- A block whose executor never goes down, once it has got as far as its groups. A group is left
out only if a group failed, and of those that failed the lowest is reported, else the lowest that
breaks the contract. A lone worker that no signal disturbs asks for the groups from large to small
and then from low to high, reports the first that fails, and asks for none after it. -/
theorem execute_fails_first (engine : Engine) (transactions : List Transaction) (header : Header)
    (base : StateView) (prior : Option Overlay) (token : Token) (events : List Event)
    (serial : List Effect) (left : Token)
    (up : engine.executor.StaysUp base)
    (entered : engine.Entered transactions header base prior token serial left) :
    let groups := (engine.partition header transactions).groups
    let pool := engine.groupsPool transactions header base prior serial left events
    let outcome := engine.execute transactions header base prior token events
    (∀ group : Nat, pool.slots[group]? = some none → ∃ other reason, pool.FailedAt other reason) ∧
    (∀ group source,
      outcome = .error (.groupFailed group source) ↔ pool.FailedFirst group source) ∧
    (∀ group fault, (∀ other reason, ¬ pool.FailedAt other reason) →
      pool.BreaksAt groups group fault →
      (∀ lower < group, ∀ fault, ¬ pool.BreaksAt groups lower fault) →
        outcome = .error (.executorContract ("group " ++ toString group) fault.message)) ∧
    (pool.workers.length = 1 → left.raised = false → .signal ∉ events →
      engine.executor.Silent base →
      let sizes := groups.map List.length
      let order := WorkQueue.order sizes
      let job := engine.job groups base (Overlay.merge prior serial)
      order.Perm (List.range groups.length) ∧
      (order.Pairwise fun a b =>
        sizes.getD b 0 < sizes.getD a 0 ∨ sizes.getD a 0 = sizes.getD b 0 ∧ a < b) ∧
      ((∃ group < groups.length, ∃ reason, Pool.Fails job group reason) →
        ∃ group source, outcome = .error (.groupFailed group source)) ∧
      ∀ group source, outcome = .error (.groupFailed group source) →
        ∃ before after reason, order = before ++ group :: after ∧ Pool.Calm job before ∧
          source = .fatal reason ∧ Pool.Fails job group reason ∧
          pool.calls.reverse = before ++ [group]) := by
  intro groups pool outcome
  have justified : Pool.Justified groups.length pool := justified_groupPhase up _ _ _ _
  have drawn : outcome = pool.outcomes groups >>=
      conclude (engine.partition header transactions) transactions.length serial :=
    entered.execute events
  have reported : ∀ group source,
      outcome = .error (.groupFailed group source) ↔ pool.FailedFirst group source := by
    intro group source
    rw [drawn]
    constructor
    · intro failed
      exact Pool.failedFirst_of_outcomes justified.hasCrashed (answered_of_unfailed up)
        (outcomes_of_execute failed)
    · intro first
      rw [Pool.outcomes_of_failedFirst justified.hasCrashed first]
      rfl
  refine ⟨fun group empty => failedAt_of_empty up empty, reported, ?_, ?_⟩
  · intro group fault unfailed breaks lowest
    rw [drawn, Pool.outcomes_of_breaksAt justified.hasCrashed (answered_of_unfailed up unfailed)
      justified.slots breaks lowest]
    rfl
  · intro one down quiet silent sizes order job
    have alone : Pool.Alone job order pool := alone_groupPhase up silent down quiet one
    have atRest : pool.AtRest := groupPhase_atRest engine groups base _ _ events
    have listed : order.Perm (List.range groups.length) := by
      have perm := WorkQueue.order_perm sizes
      rwa [List.length_map] at perm
    refine ⟨listed, WorkQueue.order_pairwise sizes, ?_, ?_⟩
    · rintro ⟨group, inside, reason, fails⟩
      have queued : group ∈ order := listed.mem_iff.mpr (List.mem_range.mpr inside)
      obtain ⟨_, _, failed⟩ := justified.failedAt_of_halted atRest
        (alone.halted_of_fails atRest queued fails)
      obtain ⟨first, source, failedFirst⟩ := Pool.exists_failedFirst failed
      exact ⟨first, source, (reported first source).mpr failedFirst⟩
    · intro group source failed
      obtain ⟨⟨reason, rfl, failedAt⟩, _⟩ := (reported group source).mp failed
      obtain ⟨before, after, split, calm, fails, calls⟩ := alone.first_fails atRest failedAt
      exact ⟨before, after, reason, split, calm, rfl, fails, calls⟩

end Engine

namespace Sample

def threeCalls : List Transaction := [payBob, payCarol, nextRound]

/-- One worker, two groups of different size, and an executor that can go on with neither. -/
def failing : Engine where
  threads := 1
  grouper _ _ := ⟨[], [[payBob], [payCarol, nextRound]], []⟩
  executor := ⟨fun _ _ _ _ token => (.done (.error (.fatal "out of memory")), token)⟩

theorem failing_entered :
    failing.Entered threeCalls header genesis.view none .quiet [] .quiet where
  down := rfl
  partitioned := by decide +kernel
  serially := rfl

end Sample

namespace Engine

theorem sample_fails_first :
    let pool := Sample.failing.groupsPool Sample.threeCalls Sample.header Sample.genesis.view none
      [] .quiet []
    Sample.failing.execute Sample.threeCalls Sample.header Sample.genesis.view none .quiet =
        .error (.groupFailed 1 (.fatal "out of memory")) ∧
      pool.calls = [1] := by
  intro pool
  have order : WorkQueue.order [1, 2] = [1, 0] := by simp [WorkQueue.order, List.mergeSort]
  have one : pool.workers.length = 1 := length_workers_groupPhase Sample.failing _ _ _ _ _
  obtain ⟨_, _, _, lone⟩ := execute_fails_first Sample.failing Sample.threeCalls Sample.header
    Sample.genesis.view none .quiet [] [] .quiet (fun _ _ _ _ => nofun) Sample.failing_entered
  obtain ⟨_, _, some, all⟩ := lone one rfl List.not_mem_nil fun _ _ _ => rfl
  obtain ⟨group, source, failed⟩ := some ⟨0, by decide, "out of memory", rfl⟩
  obtain ⟨before, after, reason, split, calm, rfl, fails, calls⟩ := all group source failed
  cases before with
  | nil =>
    obtain ⟨rfl, _⟩ := List.cons.inj (order.symm.trans split)
    cases fails
    exact ⟨failed, List.reverse_eq_iff.mp calls⟩
  | cons first before => exact absurd rfl (calm first (by simp) "out of memory")

end Engine
end GroupedLedger
