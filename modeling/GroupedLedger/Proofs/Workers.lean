import GroupedLedger.Pool
import GroupedLedger.Proofs.Queues
import Mathlib.Logic.Relation

namespace GroupedLedger

namespace Worker

def held? : Worker → Option Nat
  | .holding group => some group
  | .running group => some group
  | .answered group _ => some group
  | .storing group _ => some group
  | _ => none

/-- The group in a worker's hands that the executor was called on, unless the signal kept the
worker from it. -/
def called? : Worker → Option Nat
  | .holding _ => none
  | worker => worker.held?

/-- How often a group is in a worker's hands. -/
def holds (group : Nat) (worker : Worker) : Nat := if worker.held? = some group then 1 else 0

/-- A quantity summed over workers. -/
def total (amount : Worker → Nat) (workers : List Worker) : Nat :=
  workers.foldr (fun worker rest => amount worker + rest) 0

theorem total_set (amount : Worker → Nat) {workers : List Worker} {i : Nat} {place : Worker}
    (here : workers[i]? = some place) (phase : Worker) :
    total amount (workers.set i phase) + amount place = total amount workers + amount phase := by
  induction workers generalizing i with
  | nil => simp at here
  | cons worker workers ih =>
    cases i with
    | zero =>
      have he : worker = place := by simpa using here
      subst he
      simp only [total, List.set_cons_zero, List.foldr_cons]
      omega
    | succ i =>
      have ht := @ih i (by simpa using here)
      simp only [total, List.set_cons_succ, List.foldr_cons] at ht ⊢
      omega

theorem total_eq_zero {amount : Worker → Nat} {workers : List Worker}
    (none : ∀ worker ∈ workers, amount worker = 0) : total amount workers = 0 := by
  induction workers with
  | nil => rfl
  | cons worker workers ih =>
    have hw := none worker (by simp)
    have ht := ih fun other hm => none other (by simp [hm])
    simp only [total, List.foldr_cons] at ht ⊢
    omega

/-- No more than the whole is found at one worker. -/
theorem le_total (amount : Worker → Nat) {workers : List Worker} {worker : Worker}
    (here : worker ∈ workers) : amount worker ≤ total amount workers := by
  induction workers with
  | nil => simp at here
  | cons first workers ih =>
    simp only [total, List.foldr_cons] at ih ⊢
    rcases List.mem_cons.mp here with rfl | hm
    · omega
    · have := ih hm
      omega

end Worker

namespace Pool

variable {job : Nat → Token → Answer × Token}

@[simp] theorem move_queue (pool : Pool) (i : Nat) (phase : Worker) :
    (pool.move i phase).queue = pool.queue := rfl

@[simp] theorem move_slots (pool : Pool) (i : Nat) (phase : Worker) :
    (pool.move i phase).slots = pool.slots := rfl

@[simp] theorem move_signalled (pool : Pool) (i : Nat) (phase : Worker) :
    (pool.move i phase).signalled = pool.signalled := rfl

@[simp] theorem move_calls (pool : Pool) (i : Nat) (phase : Worker) :
    (pool.move i phase).calls = pool.calls := rfl

@[simp] theorem move_workers (pool : Pool) (i : Nat) (phase : Worker) :
    (pool.move i phase).workers = pool.workers.set i phase := rfl

theorem work_eq (pool : Pool) :
    pool.work = 6 * pool.queue.ready.length + Worker.total Worker.work pool.workers := rfl

/-- No worker can step any more. -/
def AtRest (pool : Pool) : Prop := ∀ worker ∈ pool.workers, worker.active = false

theorem atRest_iff (pool : Pool) : pool.AtRest ↔ pool.workers.findIdx? Worker.active = none := by
  rw [List.findIdx?_eq_none_iff]
  rfl

/-- A worker steps, whichever it is and however late its executor may see the signal. -/
inductive WorkerStep (job : Nat → Token → Answer × Token) : Pool → Pool → Prop where
  | step {pool : Pool} {place : Worker} (i late : Nat) (here : pool.workers[i]? = some place)
      (active : place.active = true) : WorkerStep job pool (pool.stepFrom job i late place)

/-- All that the step of a worker can be, by where the worker stands. -/
inductive Turn (job : Nat → Token → Answer × Token) (pool : Pool) (i : Nat) :
    Worker → Pool → Prop where
  | turnedAway (halted : pool.queue.halted = true) :
      Turn job pool i .idle (pool.move i .stopped)
  | admitted (running : pool.queue.halted = false) :
      Turn job pool i .idle (pool.move i .admitted)
  | ranDry (ready : pool.queue.ready = []) :
      Turn job pool i .admitted (pool.move i .stopped)
  | took {group : Nat} {rest : List Nat} (ready : pool.queue.ready = group :: rest) :
      Turn job pool i .admitted
        ({ pool with queue := { pool.queue with ready := rest } }.move i (.holding group))
  | skipped {group : Nat} (signalled : pool.signalled = true) :
      Turn job pool i (.holding group) (pool.move i (.answered group (.error .cancelled)))
  | called {group : Nat} (down : pool.signalled = false) :
      Turn job pool i (.holding group)
        ({ pool with calls := group :: pool.calls }.move i (.running group))
  | answered {group late : Nat} {run : Run} {token : Token}
      (asked : job group ⟨if pool.signalled then some late else none⟩ = (.done run, token)) :
      Turn job pool i (.running group)
        ({ pool with signalled := pool.signalled || token.raised }.move i (.answered group run))
  | crashed {group late : Nat} {token : Token}
      (asked : job group ⟨if pool.signalled then some late else none⟩ = (.crashed, token)) :
      Turn job pool i (.running group)
        ({ pool with signalled := pool.signalled || token.raised }.move i .crashed)
  | noted {group : Nat} {run : Run} :
      Turn job pool i (.answered group run)
        ({ pool with queue := if isFatal run then pool.queue.halt else pool.queue }.move i
          (.storing group run))
  | stored {group : Nat} {run : Run} :
      Turn job pool i (.storing group run)
        ({ pool with slots := pool.slots.set group (some run) }.move i .idle)

theorem WorkerStep.turn {pool next : Pool} (step : WorkerStep job pool next) :
    ∃ i place, pool.workers[i]? = some place ∧ Turn job pool i place next := by
  obtain ⟨i, late, here, active⟩ := step
  rename_i place
  refine ⟨i, place, here, ?_⟩
  cases place with
  | idle =>
    simp only [stepFrom]
    split
    · rename_i halted
      exact .turnedAway halted
    · rename_i running
      exact .admitted (Bool.eq_false_iff.mpr running)
  | admitted =>
    cases ready : pool.queue.ready with
    | nil =>
      simp only [stepFrom, WorkQueue.take, ready]
      exact .ranDry ready
    | cons group rest =>
      simp only [stepFrom, WorkQueue.take, ready]
      exact .took ready
  | holding group =>
    simp only [stepFrom]
    split
    · rename_i signalled
      exact .skipped signalled
    · rename_i down
      exact .called (Bool.eq_false_iff.mpr down)
  | running group =>
    rcases asked : job group ⟨if pool.signalled then some late else none⟩ with ⟨answer, token⟩
    simp only [stepFrom, asked]
    cases answer with
    | done run => exact .answered asked
    | crashed => exact .crashed asked
  | answered group run => exact .noted
  | storing group run => exact .stored
  | stopped => cases active
  | crashed => cases active

theorem work_move (pool : Pool) {i : Nat} {place : Worker} (here : pool.workers[i]? = some place)
    (phase : Worker) : (pool.move i phase).work + place.work = pool.work + phase.work := by
  have ht := Worker.total_set Worker.work here phase
  simp only [work_eq, move_queue, move_workers]
  omega

/-- The work left falls with every step. -/
theorem WorkerStep.work_lt {pool next : Pool} (step : WorkerStep job pool next) :
    next.work < pool.work := by
  obtain ⟨i, place, here, turn⟩ := step.turn
  have less : ∀ {phase : Worker}, phase.work < place.work →
      (pool.move i phase).work < pool.work := by
    intro phase nearer
    have := work_move pool here phase
    omega
  cases turn with
  | turnedAway => exact less (by simp [Worker.work])
  | admitted => exact less (by simp [Worker.work])
  | ranDry => exact less (by simp [Worker.work])
  | @took group rest ready =>
    have := work_move { pool with queue := { pool.queue with ready := rest } } here (.holding group)
    simp only [work_eq, ready, List.length_cons, Worker.work] at this ⊢
    omega
  | skipped => exact less (by simp [Worker.work])
  | called => exact less (by simp [Worker.work])
  | answered => exact less (by simp [Worker.work])
  | crashed => exact less (by simp [Worker.work])
  | @noted group run =>
    have halted : (if isFatal run then pool.queue.halt else pool.queue).ready =
        pool.queue.ready := by
      split <;> rfl
    have := work_move pool here (.storing group run)
    simp only [work_eq, halted, move_queue, move_workers, Worker.work] at this ⊢
    omega
  | stored => exact less (by simp [Worker.work])

/-- What an interleaving of the workers can lead to. -/
def Reaches (job : Nat → Token → Answer × Token) : Pool → Pool → Prop :=
  Relation.ReflTransGen (WorkerStep job)

theorem react_reaches (pool : Pool) (i late : Nat) :
    Reaches job pool (pool.react job (.step i late)) := by
  simp only [react]
  cases here : pool.workers[i]? with
  | none => exact .refl
  | some place =>
    cases active : place.active with
    | true => exact .single (.step i late here active)
    | false => cases place <;> first | exact .refl | cases active

theorem foldl_react_reaches (pool : Pool) {events : List Event} (quiet : .signal ∉ events) :
    Reaches job pool (events.foldl (react job) pool) := by
  induction events generalizing pool with
  | nil => exact .refl
  | cons event events ih =>
    cases event with
    | signal => simp at quiet
    | step i late =>
      exact (react_reaches pool i late).trans (ih _ (by simpa using quiet))

theorem settle_reaches (steps : Nat) (pool : Pool) :
    Reaches job pool (pool.settle job steps) := by
  induction steps generalizing pool with
  | zero => exact .refl
  | succ steps ih =>
    simp only [settle]
    cases pool.workers.findIdx? Worker.active with
    | none => exact .refl
    | some i => exact (react_reaches pool i 0).trans (ih _)

theorem Reaches.keeps {P : Pool → Prop}
    (step : ∀ pool next, P pool → WorkerStep job pool next → P next) {pool next : Pool}
    (path : Reaches job pool next) (start : P pool) : P next := by
  induction path with
  | refl => exact start
  | tail _ taken ih => exact step _ _ ih taken

theorem WorkerStep.length_workers {pool next : Pool} (step : WorkerStep job pool next) :
    next.workers.length = pool.workers.length := by
  obtain ⟨i, place, _, turn⟩ := step.turn
  cases turn <;> exact List.length_set

theorem Reaches.length_workers {pool next : Pool} (path : Reaches job pool next) :
    next.workers.length = pool.workers.length :=
  path.keeps (P := fun next => next.workers.length = pool.workers.length)
    (fun _ _ h step => step.length_workers.trans h) rfl

/-- What the signal and every step of a worker keep, a run keeps, whatever the events. -/
theorem run_keeps {P : Pool → Prop}
    (signal : ∀ pool : Pool, P pool → P { pool with signalled := true })
    (step : ∀ pool next, P pool → WorkerStep job pool next → P next) {pool : Pool}
    (start : P pool) (events : List Event) : P (pool.run job events) := by
  apply (settle_reaches _ _).keeps step
  induction events generalizing pool with
  | nil => exact start
  | cons event events ih =>
    apply ih
    cases event with
    | signal => exact signal pool start
    | step i late => exact (react_reaches pool i late).keeps step start

theorem length_workers_run (pool : Pool) (events : List Event) :
    (pool.run job events).workers.length = pool.workers.length :=
  run_keeps (P := fun next => next.workers.length = pool.workers.length) (fun _ h => h)
    (fun _ _ h step => step.length_workers.trans h) rfl events

/-- As many steps as there is work bring every worker to rest. -/
theorem settle_atRest {steps : Nat} {pool : Pool} (enough : pool.work ≤ steps) :
    (pool.settle job steps).AtRest := by
  induction steps generalizing pool with
  | zero =>
    intro worker hw
    have hl := Worker.le_total Worker.work hw
    change worker.work ≤ Worker.total Worker.work pool.workers at hl
    rw [work_eq] at enough
    cases worker <;> simp only [Worker.work] at hl <;> first | rfl | omega
  | succ steps ih =>
    simp only [settle]
    cases hf : pool.workers.findIdx? Worker.active with
    | none => exact (atRest_iff pool).mpr hf
    | some i =>
      obtain ⟨hi, active, _⟩ := List.findIdx?_eq_some_iff_getElem.mp hf
      have here : pool.workers[i]? = some pool.workers[i] := List.getElem?_eq_getElem hi
      have hw := (WorkerStep.step i 0 here active : WorkerStep job pool _).work_lt
      apply ih
      simp only [react, here]
      omega

/-- The pool comes to rest, whatever happens on the way. -/
theorem run_atRest (pool : Pool) (events : List Event) : (pool.run job events).AtRest :=
  settle_atRest (Nat.le_refl _)

theorem hasCrashed_eq_false_iff {pool : Pool} :
    pool.hasCrashed = false ↔ ∀ worker ∈ pool.workers, worker.down = false := by
  simp only [hasCrashed, List.any_eq_false, Bool.not_eq_true]

theorem hasCrashed_move_crashed {pool : Pool} {i : Nat} {place : Worker}
    (here : pool.workers[i]? = some place) : (pool.move i .crashed).hasCrashed = true := by
  obtain ⟨inside, _⟩ := List.getElem?_eq_some_iff.mp here
  exact List.any_eq_true.mpr ⟨.crashed, List.mem_set inside _, rfl⟩

/-- No worker goes down but with the executor. -/
theorem WorkerStep.stays_up {pool next : Pool} (step : WorkerStep job pool next)
    (calm : ∀ group late, (job group ⟨if pool.signalled then some late else none⟩).1 ≠ .crashed)
    (up : pool.hasCrashed = false) : next.hasCrashed = false := by
  obtain ⟨i, place, here, turn⟩ := step.turn
  obtain ⟨phase, workers, phaseUp⟩ : ∃ phase : Worker,
      next.workers = pool.workers.set i phase ∧ phase.down = false := by
    cases turn with
    | crashed asked => exact absurd (congrArg Prod.fst asked) (calm _ _)
    | _ => exact ⟨_, rfl, rfl⟩
  rw [hasCrashed_eq_false_iff] at up ⊢
  intro worker hm
  rw [workers] at hm
  rcases List.mem_or_eq_of_mem_set hm with hm | rfl
  · exact up worker hm
  · exact phaseUp

/-- Workers that rest have stopped if none went down. -/
theorem AtRest.stopped {pool : Pool} (rest : pool.AtRest) (up : pool.hasCrashed = false) :
    ∀ worker ∈ pool.workers, worker = .stopped := by
  intro worker hm
  have inactive := rest worker hm
  have up := hasCrashed_eq_false_iff.mp up worker hm
  cases worker with
  | stopped => rfl
  | crashed => cases up
  | _ => cases inactive

theorem run_reaches (pool : Pool) {events : List Event} (quiet : .signal ∉ events) :
    Reaches job pool (pool.run job events) :=
  (foldl_react_reaches pool quiet).trans (settle_reaches _ _)

def stored (pool : Pool) (group : Nat) : Bool := pool.slots[group]?.join.isSome

/-- In how many places a group is: queued, in a worker's hands or stored. -/
def places (pool : Pool) (group : Nat) : Nat :=
  pool.queue.ready.count group + Worker.total (Worker.holds group) pool.workers +
    (pool.stored group).toNat

/-- Each of `count` groups is in one place, and no other group is anywhere. -/
structure Accounted (count : Nat) (pool : Pool) : Prop where
  slots : pool.slots.length = count
  once : ∀ group, pool.places group = if group < count then 1 else 0

theorem accounted_start (threads : Nat) (sizes : List Nat) (signalled : Bool) :
    Accounted sizes.length (start threads sizes signalled) := by
  refine ⟨by simp [start], fun group => ?_⟩
  have hq : (WorkQueue.order sizes).count group = if group < sizes.length then 1 else 0 := by
    rw [(WorkQueue.order_perm sizes).count_eq, List.count_range]
  have hw : Worker.total (Worker.holds group) (start threads sizes signalled).workers = 0 := by
    apply Worker.total_eq_zero
    intro worker hm
    rw [List.eq_of_mem_replicate hm]
    rfl
  have hs : (start threads sizes signalled).stored group = false := by
    simp [stored, start, List.getElem?_replicate]
    split <;> rfl
  rw [places, hw, hs]
  simpa [start, WorkQueue.ofSizes] using hq

theorem Accounted.of_holds {count : Nat} {pool : Pool} (h : Accounted count pool) {group : Nat}
    {worker : Worker} (here : worker ∈ pool.workers) (held : worker.held? = some group) :
    group < count ∧ pool.stored group = false ∧ pool.queue.ready.count group = 0 ∧
      Worker.total (Worker.holds group) pool.workers = 1 := by
  have ho := h.once group
  have hl := Worker.le_total (Worker.holds group) here
  simp only [places] at ho
  simp only [Worker.holds, held, if_true] at hl
  split at ho
  · rename_i hlt
    cases hs : pool.stored group with
    | true => simp only [hs, Bool.toNat_true] at ho; omega
    | false =>
      simp only [hs, Bool.toNat_false] at ho
      exact ⟨hlt, rfl, by omega, by omega⟩
  · omega

/-- An answer that is stored after another one was put in a slot is that one or was there before. -/
theorem eq_or_stored_of_set {slots : List (Option Run)} {group other : Nat} {run stored : Run}
    (found : (slots.set group (some run))[other]? = some (some stored)) :
    other = group ∧ stored = run ∨ slots[other]? = some (some stored) := by
  by_cases he : group = other
  · subst he
    rw [List.getElem?_set_self'] at found
    cases here : slots[group]? with
    | none => simp [here] at found
    | some _ => exact .inl ⟨rfl, by simpa [here] using found.symm⟩
  · rw [List.getElem?_set_ne he] at found
    exact .inr found

theorem stored_set (pool : Pool) {group : Nat} (inside : group < pool.slots.length)
    (answer : Run) (other : Nat) :
    { pool with slots := pool.slots.set group (some answer) }.stored other =
      (group == other || pool.stored other) := by
  simp only [stored, List.getElem?_set]
  by_cases he : group = other
  · subst he
    simp [inside]
  · simp [he]

theorem places_move (pool : Pool) {i : Nat} {place : Worker} (here : pool.workers[i]? = some place)
    (phase : Worker) (group : Nat) :
    (pool.move i phase).places group + place.holds group =
      pool.places group + phase.holds group := by
  have ht := Worker.total_set (Worker.holds group) here phase
  have hs : (pool.move i phase).stored group = pool.stored group := rfl
  simp only [places, hs, move_queue, move_workers]
  omega

/-- A worker that keeps what it has in hand leaves every group where it is. -/
theorem Accounted.move {count : Nat} {pool next : Pool} (h : Accounted count pool) {i : Nat}
    {place phase : Worker} (here : pool.workers[i]? = some place)
    (ready : next.queue.ready = pool.queue.ready) (slots : next.slots = pool.slots)
    (workers : next.workers = pool.workers.set i phase) (same : phase.held? = place.held?) :
    Accounted count next := by
  refine ⟨slots ▸ h.slots, fun group => ?_⟩
  have ho := h.once group
  have hp := places_move pool here phase group
  simp only [places, stored, move_queue, move_slots, move_workers, Worker.holds, same] at ho hp
  simp only [places, stored, ready, slots, workers]
  omega

/-- No step but a crash loses, doubles or misplaces a group. -/
theorem Accounted.step {count : Nat} {pool next : Pool} (h : Accounted count pool)
    (step : WorkerStep job pool next) (up : next.hasCrashed = false) : Accounted count next := by
  obtain ⟨i, place, here, turn⟩ := step.turn
  cases turn with
  | turnedAway => exact h.move here rfl rfl rfl rfl
  | admitted => exact h.move here rfl rfl rfl rfl
  | ranDry => exact h.move here rfl rfl rfl rfl
  | @took group rest ready =>
    refine ⟨h.slots, fun other => ?_⟩
    have ho := h.once other
    have hp := places_move { pool with queue := { pool.queue with ready := rest } } here
      (.holding group) other
    simp only [places, ready, List.count_cons, stored, Worker.holds, Worker.held?, reduceCtorEq,
      Option.some.injEq, beq_iff_eq, if_false] at ho hp ⊢
    omega
  | skipped => exact h.move here rfl rfl rfl rfl
  | called => exact h.move here rfl rfl rfl rfl
  | answered => exact h.move here rfl rfl rfl rfl
  | crashed => exact absurd (hasCrashed_move_crashed here) (Bool.eq_false_iff.mp up)
  | noted =>
    refine h.move here ?_ rfl rfl rfl
    rw [move_queue]
    split <;> rfl
  | @stored group answer =>
    obtain ⟨inside, empty, _, _⟩ := h.of_holds (List.mem_of_getElem? here) rfl
    have hi : group < pool.slots.length := h.slots ▸ inside
    refine ⟨by simpa using h.slots, fun other => ?_⟩
    have ho := h.once other
    have hp := places_move { pool with slots := pool.slots.set group (some answer) } here .idle
      other
    have hs := stored_set pool hi answer other
    simp only [places, hs, Worker.holds, Worker.held?, Option.some.injEq, reduceCtorEq,
      if_false] at ho hp ⊢
    by_cases he : group = other
    · subst he
      simp only [empty, beq_self_eq_true, Bool.true_or, if_true, Bool.toNat_true,
        Bool.toNat_false] at ho hp ⊢
      omega
    · simp only [beq_eq_false_iff_ne.mpr he, Bool.false_or, he, if_false] at hp ⊢
      omega

end Pool
end GroupedLedger
