import GroupedLedger.Proofs.Failures

namespace GroupedLedger

theorem mem_set_of_mem_set {α : Type} {xs : List α} {i : Nat} {x y : α} (mem : y ∈ xs.set i x)
    (ne : y ≠ x) (z : α) : y ∈ xs.set i z := by
  obtain ⟨j, hj⟩ := List.mem_iff_getElem?.mp mem
  have distinct : i ≠ j := by
    rintro rfl
    rw [List.getElem?_set_self'] at hj
    cases here : xs[i]? with
    | none => simp [here] at hj
    | some _ => exact ne (by simpa [here] using hj.symm)
  rw [List.getElem?_set_ne distinct] at hj
  exact List.mem_iff_getElem?.mpr ⟨j, by rw [List.getElem?_set_ne distinct, hj]⟩

namespace Pool

variable {job : Nat → Token → Answer × Token} {count : Nat} {pool next : Pool}

theorem WorkerStep.up (step : WorkerStep job pool next) (up : next.hasCrashed = false) :
    pool.hasCrashed = false := by
  obtain ⟨i, place, here, turn⟩ := step.turn
  obtain ⟨placeUp, phase, workers⟩ : place.down = false ∧
      ∃ phase, next.workers = pool.workers.set i phase := by
    cases turn <;> exact ⟨rfl, _, rfl⟩
  rw [hasCrashed_eq_false_iff] at up ⊢
  intro worker hm
  by_cases he : worker = place
  · exact he ▸ placeUp
  · exact up worker (workers ▸ mem_set_of_ne here hm he phase)

/-- What the signal keeps, and every step of a worker that does not go down, a run keeps in which no
worker went down. -/
theorem run_keeps_of_up {P : Pool → Prop}
    (signal : ∀ pool : Pool, P pool → P { pool with signalled := true })
    (step : ∀ pool next, P pool → WorkerStep job pool next → next.hasCrashed = false → P next)
    (start : P pool) (events : List Event) (up : (pool.run job events).hasCrashed = false) :
    P (pool.run job events) := by
  refine run_keeps (P := fun pool => pool.hasCrashed = false → P pool) ?_ ?_ (fun _ => start)
    events up
  · exact fun pool kept up => signal pool (kept up)
  · exact fun pool next kept taken up => step pool next (kept (taken.up up)) taken up

/-- How the answer for a group came about. -/
inductive Came (job : Nat → Token → Answer × Token) (pool : Pool) (group : Nat) : Run → Prop where
  /-- The executor was called on the group once, and this is its answer. -/
  | called {run : Run} (once : pool.calls.count group = 1)
      (answer : ∃ token, (job group token).1 = .done run) : Came job pool group run
  /-- The signal was up, and the executor was not called on the group. -/
  | skipped (never : group ∉ pool.calls) (signalled : pool.signalled = true) :
      Came job pool group (.error .cancelled)

/-- How far a worker has got with the group in its hands. -/
def Traces (job : Nat → Token → Answer × Token) (pool : Pool) : Worker → Prop
  | .holding group => group ∉ pool.calls
  | .running group => pool.calls.count group = 1
  | .answered group run => Came job pool group run
  | .storing group run => Came job pool group run
  | _ => True

theorem Came.mono {group : Nat} {run : Run} (h : Came job pool group run)
    (calls : next.calls.count group = pool.calls.count group)
    (signalled : pool.signalled = true → next.signalled = true) : Came job next group run := by
  cases h with
  | called once answer => exact .called (calls.trans once) answer
  | skipped never up =>
    refine .skipped ?_ (signalled up)
    rw [← List.count_eq_zero] at never ⊢
    exact calls.trans never

theorem Traces.mono {worker : Worker} (h : Traces job pool worker)
    (calls : ∀ group, worker.held? = some group →
      next.calls.count group = pool.calls.count group)
    (signalled : pool.signalled = true → next.signalled = true) : Traces job next worker := by
  cases worker with
  | holding group =>
    simp only [Traces, ← List.count_eq_zero] at h ⊢
    exact (calls group rfl).trans h
  | running group => exact (calls group rfl).trans h
  | answered group run => exact Came.mono h (calls group rfl) signalled
  | storing group run => exact Came.mono h (calls group rfl) signalled
  | _ => trivial

/-- Every group that is taken up is traced from the worker's hands to its slot. -/
structure Traced (job : Nat → Token → Answer × Token) (count : Nat) (pool : Pool) : Prop extends
    Accounted count pool where
  queued : ∀ group ∈ pool.queue.ready, group ∉ pool.calls
  carried : ∀ worker ∈ pool.workers, Traces job pool worker
  settled : ∀ group run, pool.slots[group]? = some (some run) → Came job pool group run

theorem traced_start (threads : Nat) (sizes : List Nat) (signalled : Bool) :
    Traced job sizes.length (start threads sizes signalled) := by
  refine ⟨accounted_start threads sizes signalled, fun _ _ => List.not_mem_nil, ?_, ?_⟩
  · intro worker hm
    rw [List.eq_of_mem_replicate hm]
    trivial
  · intro group run stored
    simp [start, List.getElem?_replicate] at stored

/-- No two workers have the same group in their hands. -/
theorem Accounted.held_once (h : Accounted count pool) {i group : Nat} {place phase worker : Worker}
    (here : pool.workers[i]? = some place) (held : place.held? = some group)
    (other : worker ∈ pool.workers.set i phase) (ne : worker ≠ phase) :
    worker.held? ≠ some group := by
  intro heldToo
  -- Both workers would count, and all workers together hold the group once.
  obtain ⟨_, _, _, once⟩ := h.of_holds (List.mem_of_getElem? here) held
  have rest := Worker.total_set (Worker.holds group) here .stopped
  have counted := Worker.le_total (Worker.holds group) (mem_set_of_mem_set other ne .stopped)
  have mine : place.holds group = 1 := if_pos held
  have theirs : worker.holds group = 1 := if_pos heldToo
  have free : Worker.stopped.holds group = 0 := rfl
  omega

theorem Traced.move (h : Traced job count pool) (accounted : Accounted count next) {i : Nat}
    {place phase : Worker} (here : pool.workers[i]? = some place)
    (workers : next.workers = pool.workers.set i phase) (slots : next.slots = pool.slots)
    (ready : next.queue.ready ⊆ pool.queue.ready)
    (signalled : pool.signalled = true → next.signalled = true)
    (calls : ∀ group, place.held? ≠ some group →
      next.calls.count group = pool.calls.count group)
    (traces : Traces job next phase) : Traced job count next := by
  have inHand := List.mem_of_getElem? here
  refine ⟨accounted, ?_, ?_, ?_⟩
  · intro group hm
    have never := h.queued group (ready hm)
    rw [← List.count_eq_zero] at never ⊢
    rw [calls group ?_, never]
    -- A group that is still queued is in nobody's hands.
    intro held
    obtain ⟨_, _, taken, _⟩ := h.of_holds inHand held
    exact List.count_eq_zero.mp taken (ready hm)
  · intro worker hm
    rw [workers] at hm
    by_cases he : worker = phase
    · exact he ▸ traces
    · have mem := (List.mem_or_eq_of_mem_set hm).resolve_right he
      refine (h.carried worker mem).mono (fun group held => calls group fun heldToo => ?_) signalled
      exact h.held_once here heldToo hm he held
  · intro group run stored
    rw [slots] at stored
    refine (h.settled group run stored).mono (calls group fun held => ?_) signalled
    obtain ⟨_, empty, _, _⟩ := h.of_holds inHand held
    rw [Pool.stored, stored] at empty
    cases empty

theorem Traced.store (h : Traced job count pool) {i group : Nat} {run : Run}
    (here : pool.workers[i]? = some (.storing group run))
    (accounted : Accounted count
      ({ pool with slots := pool.slots.set group (some run) }.move i .idle)) :
    Traced job count ({ pool with slots := pool.slots.set group (some run) }.move i .idle) := by
  have came : Came job pool group run := h.carried _ (List.mem_of_getElem? here)
  refine ⟨accounted, h.queued, ?_, ?_⟩
  · intro worker hm
    rcases List.mem_or_eq_of_mem_set hm with hm | rfl
    · exact (h.carried worker hm).mono (fun _ _ => rfl) id
    · trivial
  · intro other stored hs
    rcases eq_or_stored_of_set hs with ⟨rfl, rfl⟩ | before
    · exact came.mono rfl id
    · exact (h.settled other stored before).mono rfl id

theorem Traced.step (h : Traced job count pool) (step : WorkerStep job pool next)
    (up : next.hasCrashed = false) : Traced job count next := by
  have accounted := h.toAccounted.step step up
  obtain ⟨i, place, here, turn⟩ := step.turn
  have traces : Traces job pool place := h.carried place (List.mem_of_getElem? here)
  cases turn with
  | @took group rest ready =>
    refine h.move accounted here rfl rfl ?_ id (fun _ _ => rfl) (h.queued group ?_)
    · rw [ready]
      exact List.subset_cons_self group rest
    · rw [ready]
      exact List.mem_cons_self
  | skipped signalled =>
    exact h.move accounted here rfl rfl (List.Subset.refl _) id (fun _ _ => rfl)
      (.skipped traces signalled)
  | @called group =>
    refine h.move accounted here rfl rfl (List.Subset.refl _) id ?_ ?_
    · intro other ne
      have distinct : group ≠ other := fun he => ne (congrArg some he)
      exact List.count_cons_of_ne distinct
    · simp only [Traces, move_calls, List.count_cons_self, List.count_eq_zero.mpr traces]
  | answered asked =>
    refine h.move accounted here rfl rfl (List.Subset.refl _) ?_ (fun _ _ => rfl) ?_
    · intro signalled
      rw [move_signalled, signalled]
      rfl
    · exact .called traces ⟨_, congrArg Prod.fst asked⟩
  | crashed => exact absurd (hasCrashed_move_crashed here) (Bool.eq_false_iff.mp up)
  | noted =>
    refine h.move accounted here rfl rfl ?_ id (fun _ _ => rfl) (Came.mono traces rfl id)
    rw [move_queue]
    split <;> exact List.Subset.refl _
  | stored => exact h.store here accounted
  | _ => exact h.move accounted here rfl rfl (List.Subset.refl _) id (fun _ _ => rfl) trivial

/-- In a run in which no worker went down every answer is traced. -/
theorem traced_run (threads : Nat) (sizes : List Nat) (signalled : Bool) (events : List Event)
    (up : ((start threads sizes signalled).run job events).hasCrashed = false) :
    Traced job sizes.length ((start threads sizes signalled).run job events) := by
  refine run_keeps_of_up (fun pool h => ?_) (fun _ _ h step up => h.step step up)
    (traced_start threads sizes signalled) events up
  refine ⟨⟨h.slots, h.once⟩, h.queued, ?_, ?_⟩
  · exact fun worker hm => (h.carried worker hm).mono (fun _ _ => rfl) fun _ => rfl
  · exact fun group run stored => (h.settled group run stored).mono rfl fun _ => rfl

end Pool
end GroupedLedger
