import GroupedLedger.Proofs.Addresses

namespace GroupedLedger

namespace Call

variable {sender other account : Address} {call a b : Call}

theorem round_mem_resources_iff : Key.round ∈ call.resources sender ↔ call = .nextRound := by
  rw [mem_resources_iff]
  simp [Key.balance_ne_round]

theorem balance_mem_resources_iff :
    Key.balance account ∈ call.resources sender ↔ account ∈ call.accounts sender := by
  rw [mem_resources_iff]
  simp [Key.balance_ne_round, Key.balance_injective.eq_iff]

theorem contract_of_mem_accounts (named : account ∈ call.accounts sender) :
    call.contract = tokenContract := by
  cases call with
  | nextRound => cases named
  | _ => rfl

theorem resources_meet_iff :
    (∃ key ∈ a.resources sender, key ∈ b.resources other) ↔
      a = .nextRound ∧ b = .nextRound ∨
        ∃ account ∈ a.accounts sender, account ∈ b.accounts other := by
  constructor
  · rintro ⟨key, first, second⟩
    rcases mem_resources_iff.mp first with ⟨round, rfl⟩ | ⟨account, named, rfl⟩
    · exact .inl ⟨round, round_mem_resources_iff.mp second⟩
    · exact .inr ⟨account, named, balance_mem_resources_iff.mp second⟩
  · rintro (⟨first, second⟩ | ⟨account, first, second⟩)
    · exact ⟨Key.round, round_mem_resources_iff.mpr first, round_mem_resources_iff.mpr second⟩
    · exact ⟨Key.balance account, balance_mem_resources_iff.mpr first,
        balance_mem_resources_iff.mpr second⟩

/-- Balance keys tell their owners apart, from the setting and from the round, whatever hash decides
the case of the letters in them; the keys in use are those of one such hash. So two transactions
that spell calls have a key of their own in common exactly if both start a round, or both are token
calls and name one account. -/
theorem keys_meet_exactly :
    (∀ (hash : Bytes → Digest) (one two : Address),
      (Key.balanceBy hash one).bytes = (Key.balanceBy hash two).bytes → one = two) ∧
    (∀ (hash : Bytes → Digest) (owner : Address),
      Key.balanceBy hash owner ≠ Key.tokenConfig ∧ Key.balanceBy hash owner ≠ Key.round) ∧
    Key.balance = Key.balanceBy keccak256 ∧
    ∀ (tx next : Transaction) (a b : Call), decode tx = .ok a → decode next = .ok b →
      ((∃ key ∈ a.resources tx.sender, key ∈ b.resources next.sender) ↔
        a = .nextRound ∧ b = .nextRound ∨
        a.contract = tokenContract ∧ b.contract = tokenContract ∧
          ∃ account ∈ a.accounts tx.sender, account ∈ b.accounts next.sender) := by
  refine ⟨?_, ?_, Key.balance_eq, ?_⟩
  · intro hash one two same
    exact Key.balanceBy_injective hash (congrArg Key.mk same)
  · intro hash owner
    exact ⟨Key.ofText_balance_ne_tokenConfig _, Key.ofText_balance_ne_round _⟩
  · intro tx next a b _ _
    rw [resources_meet_iff]
    constructor
    · rintro (rounds | ⟨account, first, second⟩)
      · exact .inl rounds
      · exact .inr ⟨contract_of_mem_accounts first, contract_of_mem_accounts second, account, first,
          second⟩
    · rintro (rounds | ⟨_, _, shared⟩)
      · exact .inl rounds
      · exact .inr shared

end Call

namespace Sample

def askCarol : Transaction := (Call.getBalance carol).toTransaction alice 2

end Sample

theorem Call.sample_keys_meet :
    decode Sample.payBob = .ok (.transfer Sample.bob 3) ∧
    decode Sample.payCarol = .ok (.transfer Sample.carol 1) ∧
    decode Sample.askCarol = .ok (.getBalance Sample.carol) ∧
    Sample.askCarol.sender = Sample.payBob.sender ∧
    (∃ key ∈ (transfer Sample.bob 3).resources Sample.payBob.sender,
      key ∈ (transfer Sample.carol 1).resources Sample.payCarol.sender) ∧
    ¬∃ key ∈ (transfer Sample.bob 3).resources Sample.payBob.sender,
      key ∈ (getBalance Sample.carol).resources Sample.askCarol.sender := by
  have paysBob : decode Sample.payBob = .ok (.transfer Sample.bob 3) := by decide +kernel
  have paysCarol : decode Sample.payCarol = .ok (.transfer Sample.carol 1) := by decide +kernel
  have asks : decode Sample.askCarol = .ok (.getBalance Sample.carol) := by decide +kernel
  obtain ⟨_, _, _, meet⟩ := keys_meet_exactly
  refine ⟨paysBob, paysCarol, asks, rfl, ?_, ?_⟩
  · exact (meet _ _ _ _ paysBob paysCarol).mpr
      (.inr ⟨rfl, rfl, Sample.bob, by decide +kernel, by decide +kernel⟩)
  · rw [meet _ _ _ _ paysBob asks]
    decide +kernel

end GroupedLedger
