import GroupedLedger.Proofs.ContractBlocks

namespace GroupedLedger

/-- Whether an error can arise once the partition holds: not where the grouper is to blame, nor
where effects are missing. -/
def BlockError.arisesInPhases : BlockError → Bool
  | .grouperContract _ => false
  | .accounting _ _ => false
  | _ => true

namespace Engine

variable {engine : Engine} {base : StateView} {prior : Option Overlay} {token : Token}

theorem serialPhase_error {batch : List Transaction} {error : BlockError} {left : Token}
    (failed : engine.serialPhase batch base prior token = (.error error, left)) :
    error.arisesInPhases = true := by
  unfold serialPhase at failed
  split at failed
  · cases failed
  · split at failed
    · cases failed
      rfl
    · cases failed
      rfl
    · cases failed
      rfl
    · simp only [checkEffects] at failed
      split at failed <;> cases failed
      rfl

/-- Once the partition holds, a block fails in one of its phases or not at all: what the phases
leave always adds up. -/
theorem execute_error_of_valid {transactions : List Transaction} {header : Header}
    {events : List Event} {error : BlockError} (down : token.poll.1 = false)
    (valid : (engine.partition header transactions).fault? (transactions.map Transaction.id) = none)
    (failed : engine.execute transactions header base prior token events = .error error) :
    error.arisesInPhases = true := by
  rw [execute_of_down (Prod.ext down rfl), valid] at failed
  simp only at failed
  split at failed
  · rename_i source left ran
    cases failed
    exact serialPhase_error ran
  · rename_i serial left ran
    cases ho : (engine.groupPhase (engine.partition header transactions).groups base
      (Overlay.merge prior serial) left.raised events).outcomes
        (engine.partition header transactions).groups with
    | error source =>
      rw [ho] at failed
      cases failed
      rcases Pool.outcomes_error ho with rfl | ⟨_, _, rfl⟩ | ⟨_, _, rfl⟩ <;> rfl
    | ok outcomes =>
      have answering := Pool.outcomes_ok (Pool.length_slots_groupPhase engine _ _ _ _ _) ho
      obtain ⟨result, drawn, _⟩ := conclude_accounts valid (serialPhase_ok ran) answering
      rw [ho] at failed
      change conclude _ _ serial outcomes = _ at failed
      rw [drawn] at failed
      cases failed

theorem execute_not_accounting (engine : Engine) (transactions : List Transaction)
    (header : Header) (base : StateView) (prior : Option Overlay) (token : Token)
    (events : List Event) (accounted expected : Nat) :
    engine.execute transactions header base prior token events ≠
      .error (.accounting accounted expected) := by
  intro failed
  cases down : token.poll.1 with
  | true =>
    rw [execute, run_of_up down] at failed
    cases failed
  | false =>
    cases valid : (engine.partition header transactions).fault?
      (transactions.map Transaction.id) with
    | some fault =>
      rw [execute, run_of_fault down valid] at failed
      cases failed
    | none => cases execute_error_of_valid down valid failed

theorem Concluded.accounts {transactions : List Transaction} {header : Header}
    {events : List Event} {serial : List Effect} {outcomes : List (GroupOutcome × Bool)}
    {result : BlockResult}
    (h : Concluded engine transactions header base prior token events serial outcomes result) :
    result.Accounts (engine.partition header transactions) transactions
      ((resolve (outcomes.map Prod.fst)).accepted.map GroupOutcome.group)
      ((resolve (outcomes.map Prod.fst)).rejected.map GroupOutcome.group) := by
  obtain ⟨left, serially, ho⟩ := h.phases
  have answering := Pool.outcomes_ok (Pool.length_slots_groupPhase engine _ _ _ _ _) ho
  obtain ⟨other, drawn, accounts⟩ := conclude_accounts h.partitioned (serialPhase_ok serially)
    answering
  rw [h.drawn] at drawn
  cases drawn
  exact accounts

/-- No block fails for want of effects, and a block's effects are its transactions: the serial ones,
the accepted groups, the unroutable ones, the rejected groups. -/
theorem execute_accounts (engine : Engine) (transactions : List Transaction) (header : Header)
    (base : StateView) (prior : Option Overlay) (token : Token) (events : List Event) :
    (∀ accounted expected, engine.execute transactions header base prior token events ≠
      .error (.accounting accounted expected)) ∧
    ∀ result, engine.execute transactions header base prior token events = .ok result →
      ∃ serial outcomes,
        Concluded engine transactions header base prior token events serial outcomes result ∧
        result.Accounts (engine.partition header transactions) transactions
          ((resolve (outcomes.map Prod.fst)).accepted.map GroupOutcome.group)
          ((resolve (outcomes.map Prod.fst)).rejected.map GroupOutcome.group) := by
  refine ⟨execute_not_accounting engine transactions header base prior token events, ?_⟩
  intro result ran
  obtain ⟨serial, outcomes, concluded⟩ := execute_ok ran
  exact ⟨serial, outcomes, concluded, concluded.accounts⟩

theorem sample_accounts :
    ∃ result accepted rejected,
      Sample.engine.execute Sample.block Sample.header Sample.genesis.view none .quiet [.step 1 0] =
        .ok result ∧
      result.serial = 1 ∧ result.unroutable = 1 ∧
      result.Accounts (Sample.engine.partition Sample.header Sample.block) Sample.block accepted
        rejected := by
  obtain ⟨result, ran⟩ := Sample.exists_result
  obtain ⟨_, _, _, accounts⟩ := (execute_accounts _ _ _ _ _ _ _).2 result ran
  exact ⟨result, _, _, ran, accounts.serial, accounts.unroutable, accounts⟩

end Engine
end GroupedLedger
