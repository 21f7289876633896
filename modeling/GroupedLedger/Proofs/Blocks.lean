import GroupedLedger.Block

namespace GroupedLedger

theorem Token.poll_quiet : Token.quiet.poll = (false, .quiet) := rfl

theorem Token.raised_quiet : Token.quiet.raised = false := rfl

/-- An executor that answers the same for the same transactions and the same overlay over `base`,
whichever call of a block it is, never goes down, never raises the signal, and is never fatal. -/
structure Executor.Steady (executor : Executor) (base : StateView)
    (answer : List Transaction → Overlay → Run) : Prop where
  answers : ∀ phase transactions overlay,
    executor.execute phase transactions base overlay .quiet =
      (.done (answer transactions overlay), .quiet)
  calm : ∀ transactions overlay, Pool.isFatal (answer transactions overlay) = false

/-- An executor that never goes down over `base`, whatever it answers. -/
def Executor.StaysUp (executor : Executor) (base : StateView) : Prop :=
  ∀ phase transactions overlay token,
    (executor.execute phase transactions base overlay token).1 ≠ .crashed

/-- An executor that leaves the signal down over `base` if it is down. -/
def Executor.Silent (executor : Executor) (base : StateView) : Prop :=
  ∀ phase transactions overlay,
    (executor.execute phase transactions base overlay .quiet).2.raised = false

namespace Engine

def partition (engine : Engine) (header : Header) (transactions : List Transaction) : Partition :=
  engine.grouper (.ofHeader header) transactions

variable {engine : Engine} {transactions : List Transaction} {header : Header} {base : StateView}
  {prior : Option Overlay} {token : Token} {events : List Event}

/-- A block whose signal is down at first is grouped, checked, and run phase by phase. -/
theorem execute_of_down {looked : Token} (down : token.poll = (false, looked)) :
    engine.execute transactions header base prior token events =
      match (engine.partition header transactions).fault? (transactions.map Transaction.id) with
      | some fault => .error (.grouperContract fault.message)
      | none =>
        match engine.serialPhase (engine.partition header transactions).serial base prior
          looked with
        | (.error error, _) => .error error
        | (.ok serial, left) =>
          (engine.groupPhase (engine.partition header transactions).groups base
            (Overlay.merge prior serial) left.raised events).outcomes
              (engine.partition header transactions).groups >>=
            conclude (engine.partition header transactions) transactions.length serial := by
  simp only [execute, run, down, partition]
  cases (engine.grouper (.ofHeader header) transactions).fault?
    (transactions.map Transaction.id) with
  | some fault => rfl
  | none =>
    simp only
    cases engine.serialPhase (engine.grouper (.ofHeader header) transactions).serial base prior
      looked with
    | mk outcome left => cases outcome <;> rfl

theorem run_of_up (up : token.poll.1 = true) :
    engine.run transactions header base prior token events = { outcome := .error .cancelled } := by
  rw [run]
  split
  · rfl
  · rename_i looked down
    rw [down] at up
    cases up

/-- A block whose partition has a fault ends there, before anything is executed. -/
theorem run_of_fault {fault : PartitionFault} (down : token.poll.1 = false)
    (found : (engine.partition header transactions).fault? (transactions.map Transaction.id) =
      some fault) :
    engine.run transactions header base prior token events =
      { outcome := .error (.grouperContract fault.message), context := some (.ofHeader header) } := by
  rw [partition] at found
  rw [run]
  split
  · rename_i looked up
    rw [up] at down
    cases down
  · simp only [found]

/-- A block went through all its phases: the partition held, the serial transactions had effects,
the groups had outcomes, and the result was drawn from both. -/
structure Concluded (engine : Engine) (transactions : List Transaction) (header : Header)
    (base : StateView) (prior : Option Overlay) (token : Token) (events : List Event)
    (serial : List Effect) (outcomes : List (GroupOutcome × Bool)) (result : BlockResult) :
    Prop where
  partitioned : (engine.partition header transactions).fault?
    (transactions.map Transaction.id) = none
  phases : ∃ left, engine.serialPhase (engine.partition header transactions).serial base prior
      token.poll.2 = (.ok serial, left) ∧
    (engine.groupPhase (engine.partition header transactions).groups base
      (Overlay.merge prior serial) left.raised events).outcomes
        (engine.partition header transactions).groups = .ok outcomes
  drawn : conclude (engine.partition header transactions) transactions.length serial
    outcomes = .ok result

theorem execute_ok {result : BlockResult}
    (ran : engine.execute transactions header base prior token events = .ok result) :
    ∃ serial outcomes,
      Concluded engine transactions header base prior token events serial outcomes result := by
  cases hp : token.poll with
  | mk up looked =>
    cases up with
    | true => simp [execute, run, hp] at ran
    | false =>
      rw [execute_of_down hp] at ran
      split at ran
      · cases ran
      · rename_i partitioned
        split at ran
        · cases ran
        · rename_i serial left serially
          cases ho : (engine.groupPhase (engine.partition header transactions).groups base
            (Overlay.merge prior serial) left.raised events).outcomes
              (engine.partition header transactions).groups with
          | error error =>
            rw [ho] at ran
            cases ran
          | ok outcomes =>
            rw [ho] at ran
            exact ⟨serial, outcomes, partitioned, ⟨left, by rw [hp]; exact serially, ho⟩, ran⟩

/-- A block has got as far as its groups: the signal was down, the partition held, and the serial
transactions had effects. -/
structure Entered (engine : Engine) (transactions : List Transaction) (header : Header)
    (base : StateView) (prior : Option Overlay) (token : Token) (serial : List Effect)
    (left : Token) : Prop where
  down : token.poll.1 = false
  partitioned : (engine.partition header transactions).fault?
    (transactions.map Transaction.id) = none
  serially : engine.serialPhase (engine.partition header transactions).serial base prior
    token.poll.2 = (.ok serial, left)

/-- The groups of a block that has got as far as its groups, when they are done. -/
def groupsPool (engine : Engine) (transactions : List Transaction) (header : Header)
    (base : StateView) (prior : Option Overlay) (serial : List Effect) (left : Token)
    (events : List Event) : Pool :=
  engine.groupPhase (engine.partition header transactions).groups base
    (Overlay.merge prior serial) left.raised events

theorem Entered.execute {serial : List Effect} {left : Token}
    (h : engine.Entered transactions header base prior token serial left) (events : List Event) :
    engine.execute transactions header base prior token events =
      (engine.groupsPool transactions header base prior serial left events).outcomes
          (engine.partition header transactions).groups >>=
        conclude (engine.partition header transactions) transactions.length serial := by
  obtain ⟨down, partitioned, serially⟩ := h
  rcases hp : token.poll with ⟨up, looked⟩
  rw [hp] at down serially
  subst down
  rw [execute_of_down hp, partitioned]
  simp only [serially]
  rfl

theorem entered_of_execute {result : BlockResult}
    (ran : engine.execute transactions header base prior token events = .ok result) :
    ∃ serial left outcomes,
      engine.Entered transactions header base prior token serial left ∧
      (engine.groupsPool transactions header base prior serial left events).outcomes
        (engine.partition header transactions).groups = .ok outcomes ∧
      Concluded engine transactions header base prior token events serial outcomes result := by
  obtain ⟨serial, outcomes, concluded⟩ := execute_ok ran
  obtain ⟨left, serially, grouped⟩ := concluded.phases
  refine ⟨serial, left, outcomes, ⟨?_, concluded.partitioned, serially⟩, grouped, concluded⟩
  cases hp : token.poll with
  | mk up looked =>
    cases up with
    | true => simp [execute, run, hp] at ran
    | false => rfl

end Engine
end GroupedLedger
