import GroupedLedger.Proofs.Accounting
import GroupedLedger.Proofs.Schedules

namespace GroupedLedger

/-- The answer in a worker's hands, with its group. -/
def Worker.answer? : Worker → Option (Nat × Run)
  | .answered group run => some (group, run)
  | .storing group run => some (group, run)
  | _ => none

namespace Pool

variable {job : Nat → Token → Answer × Token}

/-- Every answer in the pool is one that is allowed for its group. -/
structure Truthful (allowed : Nat → Run → Prop) (pool : Pool) : Prop where
  carried : ∀ worker ∈ pool.workers, ∀ group run, worker.answer? = some (group, run) →
    allowed group run
  stored : ∀ group run, pool.slots[group]? = some (some run) → allowed group run

variable {allowed : Nat → Run → Prop}

theorem truthful_start (threads : Nat) (sizes : List Nat) (signalled : Bool) :
    Truthful allowed (start threads sizes signalled) := by
  constructor
  · intro worker hm group run carried
    rw [List.eq_of_mem_replicate hm] at carried
    cases carried
  · intro group run stored
    simp [start, List.getElem?_replicate] at stored

theorem Truthful.move {pool next : Pool} (h : Truthful allowed pool) {i : Nat} {phase : Worker}
    (workers : next.workers = pool.workers.set i phase) (slots : next.slots = pool.slots)
    (answer : ∀ group run, phase.answer? = some (group, run) → allowed group run) :
    Truthful allowed next := by
  constructor
  · intro worker hm
    rw [workers] at hm
    rcases List.mem_or_eq_of_mem_set hm with hm | rfl
    · exact h.carried worker hm
    · exact answer
  · rw [slots]
    exact h.stored

/-- A step keeps answers to what is allowed if being cancelled is, once the signal is up, and what
the executor may answer is. -/
theorem Truthful.step {pool next : Pool} (h : Truthful allowed pool)
    (cancelled : pool.signalled = true → ∀ group, allowed group (.error .cancelled))
    (asked : ∀ group late run,
      (job group ⟨if pool.signalled then some late else none⟩).1 = .done run → allowed group run)
    (step : WorkerStep job pool next) : Truthful allowed next := by
  obtain ⟨i, place, here, turn⟩ := step.turn
  have kept := h.carried place (List.mem_of_getElem? here)
  cases turn with
  | @skipped group up =>
    refine h.move rfl rfl ?_
    intro other run carried
    cases carried
    exact cancelled up group
  | @answered group late answer token answered =>
    refine h.move rfl rfl ?_
    intro other run carried
    cases carried
    exact asked group late _ (congrArg Prod.fst answered)
  | noted => exact h.move rfl rfl kept
  | @stored group run =>
    constructor
    · intro worker hm
      rcases List.mem_or_eq_of_mem_set hm with hm | rfl
      · exact h.carried worker hm
      · exact fun _ _ carried => by cases carried
    · intro other stored hs
      rcases eq_or_stored_of_set hs with ⟨rfl, rfl⟩ | before
      · exact kept other stored rfl
      · exact h.stored other stored before
  | _ => exact h.move rfl rfl fun _ _ carried => by cases carried

/-- What may be stored for a group: an answer of the executor to it, or that it was cancelled. -/
def Answers (job : Nat → Token → Answer × Token) (group : Nat) (run : Run) : Prop :=
  run = .error .cancelled ∨ ∃ token, (job group token).1 = .done run

/-- What is stored for a group was answered to it, whatever the interleaving. -/
theorem truthful_run {pool : Pool} (start : Truthful (Answers job) pool) (events : List Event) :
    Truthful (Answers job) (pool.run job events) := by
  refine run_keeps (fun _ h => ⟨h.carried, h.stored⟩) (fun _ _ h step => ?_) start events
  exact h.step (fun _ _ => .inl rfl) (fun _ _ _ asked => .inr ⟨_, asked⟩) step

end Pool

namespace Engine

variable {engine : Engine} {transactions : List Transaction} {header : Header} {base : StateView}
  {prior : Option Overlay} {token : Token} {events : List Event}

/-- The executor's answer to the group of an outcome is the outcome's effects, or the group was
cancelled and each of its transactions failed untouched. -/
def Executed (engine : Engine) (groups : List (List Transaction)) (base : StateView)
    (overlay : Overlay) (outcome : GroupOutcome) : Prop :=
  (∃ token, (engine.job groups base overlay outcome.group token).1 =
      .done (.ok outcome.effects)) ∨
    outcome.effects = (groups.getD outcome.group []).map fun tx =>
      Effect.failed tx.id Effect.executionCancelled

/-- The groups of a block were executed on what the serial transactions left. -/
theorem Concluded.executed {serial : List Effect} {outcomes : List (GroupOutcome × Bool)}
    {result : BlockResult}
    (h : Concluded engine transactions header base prior token events serial outcomes result) :
    ∀ outcome ∈ outcomes.map Prod.fst, engine.Executed
      (engine.partition header transactions).groups base (Overlay.merge prior serial) outcome := by
  obtain ⟨left, _, grouped⟩ := h.phases
  generalize (engine.partition header transactions).groups = groups at grouped
  have truthful : Pool.Truthful
      (Pool.Answers (engine.job groups base (Overlay.merge prior serial))) _ := Pool.truthful_run
    (Pool.truthful_start engine.threads (groups.map List.length) left.raised) events
  have slots := Pool.length_slots_groupPhase engine groups base (Overlay.merge prior serial)
    left.raised events
  obtain ⟨count, each⟩ := Pool.outcomes_each slots grouped
  intro outcome hm
  obtain ⟨pair, hp, rfl⟩ := List.mem_map.mp hm
  obtain ⟨group, ho, rfl⟩ := List.mem_iff_getElem.mp hp
  have hg : group < groups.length := count ▸ ho
  rcases slotOutcome_cases (each group hg (by omega) ho) with ⟨effects, slot, _, placed⟩ |
    ⟨_, placed⟩
  · rw [placed]
    have here := List.getElem?_eq_getElem (slots ▸ hg)
    rw [slot] at here
    rcases truthful.stored group _ here with none | answered
    · cases none
    · exact .inl answered
  · rw [placed]
    right
    rw [List.getD_eq_getElem?_getD, List.getElem?_eq_getElem hg]
    rfl

end Engine
end GroupedLedger
