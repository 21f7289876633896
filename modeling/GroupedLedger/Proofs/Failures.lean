import GroupedLedger.Proofs.Accounting
import GroupedLedger.Proofs.Schedules

namespace GroupedLedger

theorem mem_set_of_ne {α : Type} {xs : List α} {i : Nat} {x y : α} (here : xs[i]? = some x)
    (mem : y ∈ xs) (ne : y ≠ x) (z : α) : y ∈ xs.set i z := by
  obtain ⟨j, hj⟩ := List.mem_iff_getElem?.mp mem
  have distinct : i ≠ j := by
    rintro rfl
    rw [here] at hj
    exact ne (Option.some.inj hj).symm
  exact List.mem_iff_getElem?.mpr ⟨j, by rw [List.getElem?_set_ne distinct, hj]⟩

namespace Pool

variable {job : Nat → Token → Answer × Token} {count : Nat} {pool : Pool}

theorem isFatal_iff {run : Run} : isFatal run = true ↔ ∃ reason, run = .error (.fatal reason) := by
  constructor
  · intro fatal
    unfold isFatal at fatal
    split at fatal
    · exact ⟨_, rfl⟩
    · cases fatal
  · rintro ⟨reason, rfl⟩
    rfl

def FailedAt (pool : Pool) (group : Nat) (reason : String) : Prop :=
  pool.slots[group]? = some (some (.error (.fatal reason)))

/-- What every interleaving keeps while no worker goes down: the queue is halted only for a fatal
answer, which is about to be stored or is stored, and a worker stops only at an empty or a halted
queue. -/
structure Justified (count : Nat) (pool : Pool) : Prop extends Accounted count pool where
  up : ∀ worker ∈ pool.workers, worker.down = false
  halted : pool.queue.halted = true → ∃ group reason,
    .storing group (.error (.fatal reason)) ∈ pool.workers ∨ pool.FailedAt group reason
  stopped : .stopped ∈ pool.workers → pool.queue.ready = [] ∨ pool.queue.halted = true

theorem justified_start (threads : Nat) (sizes : List Nat) (signalled : Bool) :
    Justified sizes.length (start threads sizes signalled) := by
  have idle : ∀ worker ∈ (start threads sizes signalled).workers, worker = .idle :=
    fun worker hm => List.eq_of_mem_replicate hm
  refine ⟨accounted_start threads sizes signalled, ?_, nofun, ?_⟩
  · intro worker hm
    rw [idle worker hm]
    rfl
  · intro hm
    cases idle _ hm

theorem Justified.move {next : Pool} (h : Justified count pool) (accounted : Accounted count next)
    {i : Nat} {place phase : Worker} (here : pool.workers[i]? = some place)
    (workers : next.workers = pool.workers.set i phase) (slots : next.slots = pool.slots)
    (unstored : ∀ group run, place ≠ .storing group run) (up : phase.down = false)
    (halted : next.queue.halted = true → pool.queue.halted = true ∨
      ∃ group reason, phase = .storing group (.error (.fatal reason)))
    (stopped : phase = .stopped ∨ .stopped ∈ pool.workers →
      next.queue.ready = [] ∨ next.queue.halted = true) : Justified count next := by
  refine ⟨accounted, ?_, ?_, ?_⟩
  · intro worker hm
    rw [workers] at hm
    rcases List.mem_or_eq_of_mem_set hm with hm | rfl
    · exact h.up worker hm
    · exact up
  · intro hh
    simp only [workers, FailedAt, slots]
    rcases halted hh with hh | ⟨group, reason, rfl⟩
    · obtain ⟨group, reason, storing | failed⟩ := h.halted hh
      · exact ⟨group, reason, .inl (mem_set_of_ne here storing (unstored _ _).symm phase)⟩
      · exact ⟨group, reason, .inr failed⟩
    · obtain ⟨inside, _⟩ := List.getElem?_eq_some_iff.mp here
      exact ⟨group, reason, .inl (List.mem_set inside _)⟩
  · intro hm
    rw [workers] at hm
    rcases List.mem_or_eq_of_mem_set hm with hm | he
    · exact stopped (.inr hm)
    · exact stopped (.inl he.symm)

theorem FailedAt.stored {group : Nat} {reason : String} (failed : pool.FailedAt group reason) :
    pool.stored group = true := by
  rw [Pool.stored, failed]
  rfl

/-- Storing an answer neither loses a fatal one nor overwrites one. -/
theorem Justified.store (h : Justified count pool) {i group : Nat} {run : Run}
    (here : pool.workers[i]? = some (.storing group run))
    (accounted : Accounted count
      ({ pool with slots := pool.slots.set group (some run) }.move i .idle)) :
    Justified count ({ pool with slots := pool.slots.set group (some run) }.move i .idle) := by
  obtain ⟨inside, empty, _, _⟩ := h.of_holds (List.mem_of_getElem? here) rfl
  have hi : group < pool.slots.length := h.slots ▸ inside
  refine ⟨accounted, ?_, ?_, ?_⟩
  · intro worker hm
    rcases List.mem_or_eq_of_mem_set hm with hm | rfl
    · exact h.up worker hm
    · rfl
  · intro hh
    obtain ⟨other, reason, storing | failed⟩ := h.halted hh
    · by_cases he : Worker.storing other (.error (.fatal reason)) = .storing group run
      · cases he
        exact ⟨group, reason, .inr (List.getElem?_set_self hi)⟩
      · exact ⟨other, reason, .inl (mem_set_of_ne here storing he .idle)⟩
    · have distinct : group ≠ other := by
        rintro rfl
        rw [failed.stored] at empty
        cases empty
      exact ⟨other, reason, .inr ((List.getElem?_set_ne distinct).trans failed)⟩
  · intro hm
    rcases List.mem_or_eq_of_mem_set hm with hm | he
    · exact h.stopped hm
    · cases he

theorem Justified.hasCrashed (h : Justified count pool) : pool.hasCrashed = false :=
  hasCrashed_eq_false_iff.mpr h.up

theorem Justified.step {next : Pool} (h : Justified count pool)
    (calm : ∀ group token, (job group token).1 ≠ .crashed) (step : WorkerStep job pool next) :
    Justified count next := by
  have accounted : Accounted count next :=
    h.toAccounted.step step (step.stays_up (fun group _ => calm group _) h.hasCrashed)
  obtain ⟨i, place, here, turn⟩ := step.turn
  cases turn with
  | turnedAway halted =>
    exact h.move accounted here rfl rfl (fun _ _ => Worker.noConfusion) rfl .inl
      fun _ => .inr halted
  | ranDry ready =>
    exact h.move accounted here rfl rfl (fun _ _ => Worker.noConfusion) rfl .inl fun _ => .inl ready
  | @took group rest ready =>
    refine h.move accounted here rfl rfl (fun _ _ => Worker.noConfusion) rfl .inl ?_
    rintro (he | hs)
    · cases he
    · refine .inr ((h.stopped hs).resolve_left ?_)
      rw [ready]
      exact List.cons_ne_nil group rest
  | crashed asked => exact absurd (congrArg Prod.fst asked) (calm _ _)
  | @noted group run =>
    refine h.move accounted here rfl rfl (fun _ _ => Worker.noConfusion) rfl ?_ ?_
    · intro halted
      simp only [move_queue] at halted
      split at halted
      · rename_i fatal
        obtain ⟨reason, rfl⟩ := isFatal_iff.mp fatal
        exact .inr ⟨group, reason, rfl⟩
      · exact .inl halted
    · rintro (he | hs)
      · cases he
      · simp only [move_queue]
        split
        · exact .inr rfl
        · exact h.stopped hs
  | stored => exact h.store here accounted
  | _ =>
    exact h.move accounted here rfl rfl (fun _ _ => Worker.noConfusion) rfl .inl
      (by rintro (he | hs); cases he; exact h.stopped hs)

/-- Once the workers rest, the fatal answer that halted the queue is stored. -/
theorem Justified.failedAt_of_halted (h : Justified count pool) (rest : pool.AtRest)
    (halted : pool.queue.halted = true) : ∃ group reason, pool.FailedAt group reason := by
  obtain ⟨group, reason, storing | failed⟩ := h.halted halted
  · cases rest.stopped h.hasCrashed _ storing
  · exact ⟨group, reason, failed⟩

/-- Once the workers rest, an empty slot is the work of a fatal answer. -/
theorem Justified.failedAt_of_empty (h : Justified count pool) (rest : pool.AtRest)
    (manned : 0 < count → pool.workers ≠ []) {group : Nat}
    (empty : pool.slots[group]? = some none) : ∃ other reason, pool.FailedAt other reason := by
  have stopped := rest.stopped h.hasCrashed
  obtain ⟨inside, _⟩ := List.getElem?_eq_some_iff.mp empty
  rw [h.slots] at inside
  obtain ⟨worker, hm⟩ := List.exists_mem_of_ne_nil _ (manned (by omega))
  rw [stopped worker hm] at hm
  rcases h.stopped hm with ready | halted
  · -- The group is nowhere: not queued, not in a worker's hands, and its slot is empty.
    have held : Worker.total (Worker.holds group) pool.workers = 0 :=
      Worker.total_eq_zero fun worker hw => by rw [stopped worker hw]; rfl
    have unstored : pool.stored group = false := by
      rw [stored, empty]
      rfl
    have once := h.once group
    rw [places, ready, held, unstored, if_pos inside] at once
    cases once
  · exact h.failedAt_of_halted rest halted

/-- The lowest group for which a fatal answer is stored, with the answer. -/
def FailedFirst (pool : Pool) (group : Nat) (source : ExecutionError) : Prop :=
  (∃ reason, source = .fatal reason ∧ pool.FailedAt group reason) ∧
    ∀ lower < group, ∀ reason, ¬ pool.FailedAt lower reason

theorem failedFirst_of_fatal? {group : Nat} {source : ExecutionError}
    (found : pool.fatal? = some (group, source)) : pool.FailedFirst group source := by
  obtain ⟨before, ⟨slot, place⟩, after, listed, fatal, calm⟩ := List.findSome?_eq_some_iff.mp found
  have placed : pool.slots.zipIdx[before.length]? = some (slot, place) := by
    rw [listed, List.getElem?_append_right (Nat.le_refl _), Nat.sub_self]
    rfl
  rw [List.getElem?_zipIdx, Option.map_eq_some_iff] at placed
  obtain ⟨_, stored, he⟩ := placed
  cases he
  simp only at fatal
  split at fatal
  · rename_i reason
    cases fatal
    refine ⟨⟨reason, rfl, by simpa [FailedAt] using stored⟩, ?_⟩
    intro lower below other failed
    have earlier : before[lower]? = some (some (.error (.fatal other)), lower) := by
      have shared : pool.slots.zipIdx[lower]? = before[lower]? := by
        rw [listed, List.getElem?_append_left (by omega)]
      rw [← shared, List.getElem?_zipIdx, failed]
      simp
    cases calm _ (List.mem_of_getElem? earlier)
  · cases fatal

theorem fatal?_eq_none_iff : pool.fatal? = none ↔ ∀ group reason, ¬ pool.FailedAt group reason := by
  rw [fatal?, List.findSome?_eq_none_iff]
  constructor
  · intro calm group reason failed
    cases calm (_, group) (List.mem_zipIdx_iff_getElem?.mpr failed)
  · rintro unfailed ⟨slot, group⟩ hm
    simp only
    split
    · exact absurd (List.mem_zipIdx_iff_getElem?.mp hm) (unfailed group _)
    · rfl

theorem fatal?_eq_some_iff {group : Nat} {source : ExecutionError} :
    pool.fatal? = some (group, source) ↔ pool.FailedFirst group source := by
  refine ⟨failedFirst_of_fatal?, ?_⟩
  rintro ⟨⟨reason, rfl, failed⟩, lowest⟩
  cases found : pool.fatal? with
  | none => exact absurd failed (fatal?_eq_none_iff.mp found group reason)
  | some entry =>
    obtain ⟨⟨other, hs, failedToo⟩, lowestToo⟩ := failedFirst_of_fatal? found
    rcases Nat.lt_trichotomy entry.1 group with below | same | above
    · exact absurd failedToo (lowest _ below other)
    · rw [FailedAt, same, failed] at failedToo
      cases failedToo
      exact congrArg some (Prod.ext same hs)
    · exact absurd failed (lowestToo _ above reason)

theorem exists_failedFirst {group : Nat} {reason : String} (failed : pool.FailedAt group reason) :
    ∃ first source, pool.FailedFirst first source := by
  cases found : pool.fatal? with
  | none => exact absurd failed (fatal?_eq_none_iff.mp found group reason)
  | some entry => exact ⟨entry.1, entry.2, failedFirst_of_fatal? found⟩

section Outcomes

variable {groups : List (List Transaction)}

/-- A failed group decides what comes of all, whatever befell the groups before it. -/
theorem outcomes_of_failedFirst (up : pool.hasCrashed = false) {group : Nat}
    {source : ExecutionError} (failed : pool.FailedFirst group source) :
    pool.outcomes groups = .error (.groupFailed group source) := by
  simp only [outcomes, up, fatal?_eq_some_iff.mpr failed, Bool.false_eq_true, if_false]

theorem outcomes_of_unfailed (up : pool.hasCrashed = false)
    (unfailed : ∀ group reason, ¬ pool.FailedAt group reason) :
    pool.outcomes groups = (groups.zip pool.slots).zipIdx.mapM fun entry =>
      slotOutcome entry.2 entry.1.1 entry.1.2 := by
  simp only [outcomes, up, fatal?_eq_none_iff.mpr unfailed, Bool.false_eq_true, if_false]

/-- An answer that is not fatal gives its group an outcome or breaks the contract. -/
theorem slotOutcome_of_calm (group : Nat) (transactions : List Transaction) {run : Run}
    (calm : isFatal run = false) :
    (∃ outcome, slotOutcome group transactions (some run) = .ok outcome) ∨
    ∃ effects fault, run = .ok effects ∧ effectsFault? transactions effects = some fault ∧
      slotOutcome group transactions (some run) =
        .error (.executorContract ("group " ++ toString group) fault.message) := by
  cases run with
  | error error =>
    cases error with
    | cancelled => exact .inl ⟨_, rfl⟩
    | fatal reason => cases calm
  | ok effects =>
    simp only [slotOutcome, checkEffects]
    cases found : effectsFault? transactions effects with
    | none => exact .inl ⟨_, rfl⟩
    | some fault => exact .inr ⟨effects, fault, rfl, found, rfl⟩

/-- The effects stored for a group break the contract. -/
def BreaksAt (pool : Pool) (groups : List (List Transaction)) (group : Nat)
    (fault : EffectsFault) : Prop :=
  ∃ effects, pool.slots[group]? = some (some (.ok effects)) ∧
    effectsFault? (groups.getD group []) effects = some fault

def Answered (pool : Pool) : Prop :=
  ∀ slot ∈ pool.slots, ∃ run, slot = some run ∧ isFatal run = false

theorem Answered.unfailed (answered : pool.Answered) (group : Nat) (reason : String) :
    ¬ pool.FailedAt group reason := by
  intro failed
  obtain ⟨run, he, calm⟩ := answered _ (List.mem_of_getElem? failed)
  cases he
  cases calm

theorem getElem?_zip_slots {group : Nat} {transactions : List Transaction} {slot : Option Run}
    (held : groups[group]? = some transactions) (stored : pool.slots[group]? = some slot) :
    (groups.zip pool.slots).zipIdx[group]? = some ((transactions, slot), group) := by
  have paired : (groups.zip pool.slots)[group]? = some (transactions, slot) :=
    List.getElem?_zip_eq_some.mpr ⟨held, stored⟩
  rw [List.getElem?_zipIdx, paired]
  simp

/-- Of the groups that break the contract the lowest decides, if none has failed. -/
theorem outcomes_of_breaksAt (up : pool.hasCrashed = false) (answered : pool.Answered)
    (slots : pool.slots.length = groups.length) {group : Nat} {fault : EffectsFault}
    (breaks : pool.BreaksAt groups group fault)
    (lowest : ∀ lower < group, ∀ fault, ¬ pool.BreaksAt groups lower fault) :
    pool.outcomes groups =
      .error (.executorContract ("group " ++ toString group) fault.message) := by
  obtain ⟨effects, stored, found⟩ := breaks
  obtain ⟨inside, _⟩ := List.getElem?_eq_some_iff.mp stored
  have held : ∀ group < pool.slots.length, groups[group]? = some (groups.getD group []) := by
    intro group hg
    rw [List.getD_eq_getElem?_getD, List.getElem?_eq_getElem (slots ▸ hg)]
    rfl
  rw [outcomes_of_unfailed up answered.unfailed]
  refine mapM_eq_error (getElem?_zip_slots (held group inside) stored) ?_ ?_
  · intro lower below entry he
    have hl : lower < pool.slots.length := by omega
    obtain ⟨run, filled, calm⟩ := answered _ (List.getElem_mem hl)
    have here : pool.slots[lower]? = some (some run) := by rw [List.getElem?_eq_getElem hl, filled]
    rw [getElem?_zip_slots (held lower hl) here] at he
    cases he
    refine (slotOutcome_of_calm _ _ calm).resolve_right ?_
    rintro ⟨effects, fault, rfl, broken, _⟩
    exact lowest lower below fault ⟨effects, here, broken⟩
  · simp only [slotOutcome, checkEffects, found]
    rfl

/-- No group is reported to have failed but the lowest for which a fatal answer is stored. -/
theorem failedFirst_of_outcomes (up : pool.hasCrashed = false)
    (filled : (∀ group reason, ¬ pool.FailedAt group reason) → pool.Answered) {group : Nat}
    {source : ExecutionError} (failed : pool.outcomes groups = .error (.groupFailed group source)) :
    pool.FailedFirst group source := by
  cases found : pool.fatal? with
  | some entry =>
    rw [outcomes_of_failedFirst up (fatal?_eq_some_iff.mp found)] at failed
    cases failed
    exact fatal?_eq_some_iff.mp found
  | none =>
    have unfailed := fatal?_eq_none_iff.mp found
    rw [outcomes_of_unfailed up unfailed] at failed
    obtain ⟨⟨⟨transactions, slot⟩, place⟩, hm, hf⟩ := exists_of_mapM_error failed
    obtain ⟨run, rfl, calm⟩ := filled unfailed slot
      (List.of_mem_zip (List.fst_mem_of_mem_zipIdx hm)).2
    rcases slotOutcome_of_calm place transactions calm with
      ⟨_, fine⟩ | ⟨_, _, _, _, broken⟩
    · rw [fine] at hf
      cases hf
    · rw [broken] at hf
      cases hf

end Outcomes

end Pool

namespace Engine

variable {engine : Engine} {base : StateView} {events : List Event}

theorem length_workers_groupPhase (engine : Engine) (groups : List (List Transaction))
    (base : StateView) (overlay : Overlay) (signalled : Bool) (events : List Event) :
    (engine.groupPhase groups base overlay signalled events).workers.length =
      min (max engine.threads 1) groups.length := by
  rw [groupPhase, Pool.length_workers_run]
  simp [Pool.start]

/-- The groups of a block under an executor that never goes down, whatever the interleaving. -/
theorem justified_groupPhase (up : engine.executor.StaysUp base)
    (groups : List (List Transaction)) (overlay : Overlay) (signalled : Bool)
    (events : List Event) :
    Pool.Justified groups.length (engine.groupPhase groups base overlay signalled events) := by
  have start := Pool.justified_start engine.threads (groups.map List.length) signalled
  rw [List.length_map] at start
  refine Pool.run_keeps (fun _ h => ?_) (fun _ _ h step => ?_) start events
  · exact ⟨⟨h.slots, h.once⟩, h.up, h.halted, h.stopped⟩
  · exact h.step (fun group token => up (.group group) (groups.getD group []) overlay token) step

theorem failedAt_of_empty (up : engine.executor.StaysUp base)
    {groups : List (List Transaction)} {overlay : Overlay} {signalled : Bool} {group : Nat}
    (empty : (engine.groupPhase groups base overlay signalled events).slots[group]? = some none) :
    ∃ other reason,
      (engine.groupPhase groups base overlay signalled events).FailedAt other reason := by
  refine (justified_groupPhase up groups overlay signalled events).failedAt_of_empty
    (groupPhase_atRest _ _ _ _ _ _) (fun some none => ?_) empty
  have count := length_workers_groupPhase engine groups base overlay signalled events
  rw [none, List.length_nil] at count
  omega

theorem answered_of_unfailed (up : engine.executor.StaysUp base)
    {groups : List (List Transaction)} {overlay : Overlay} {signalled : Bool}
    (unfailed : ∀ group reason,
      ¬ (engine.groupPhase groups base overlay signalled events).FailedAt group reason) :
    (engine.groupPhase groups base overlay signalled events).Answered := by
  intro slot hm
  obtain ⟨group, stored⟩ := List.mem_iff_getElem?.mp hm
  cases slot with
  | none =>
    obtain ⟨other, reason, failed⟩ := failedAt_of_empty up stored
    exact absurd failed (unfailed other reason)
  | some run =>
    refine ⟨run, rfl, Bool.eq_false_iff.mpr fun fatal => ?_⟩
    obtain ⟨reason, rfl⟩ := Pool.isFatal_iff.mp fatal
    exact unfailed group reason stored

/-- Drawing the result reports no failed group. -/
theorem outcomes_of_execute {pool : Pool} {partition : Partition} {expected : Nat}
    {serial : List Effect} {group : Nat} {source : ExecutionError}
    (failed : (pool.outcomes partition.groups >>= conclude partition expected serial) =
      .error (.groupFailed group source)) :
    pool.outcomes partition.groups = .error (.groupFailed group source) := by
  cases drawn : pool.outcomes partition.groups with
  | error error =>
    rw [drawn] at failed
    cases failed
    rfl
  | ok outcomes =>
    rw [drawn] at failed
    change conclude partition expected serial outcomes = _ at failed
    simp only [conclude_eq] at failed
    split at failed <;> cases failed

end Engine
end GroupedLedger
