import GroupedLedger.Proofs.Ledgers

namespace GroupedLedger

/-- Whether a value spells the number under a key. -/
def Lookup.Spells (below : Lookup) (key : Key) (value : Value) : Prop :=
  ∃ word, below.word? key = some word ∧ value = Bytes.ofWord word

namespace Call

/-- What the value that a call returns says of the state after it. -/
def Reports (sender : Address) (before : Lookup) (returned : Value) (after : Lookup) : Call → Prop
  | .transfer recipient amount =>
    (recipient ≠ sender → after.Spells (Key.balance sender) returned) ∧
    (recipient = sender → ∃ held, after.word? (Key.balance sender) = some held ∧ amount ≤ held ∧
      returned = Bytes.ofWord (held - amount))
  | .sweep recipient =>
    after (Key.balance sender) = none ∧
    ∃ swept, returned = Bytes.ofWord swept ∧
      after.number (Key.balance recipient) =
        before.number (Key.balance recipient) + swept.toNat
  | .getBalance owner => after.Spells (Key.balance owner) returned
  | .nextRound => after.Spells Key.round returned

theorem Moves.reports {sender : Address} {before after : Lookup} {call : Call} {returned : Value}
    (moved : call.Moves sender before returned after) :
    call.Reports sender before returned after := by
  cases moved with
  | @transfer recipient amount available received debited funds enough debit held fits =>
    subst debit
    rw [Lookup.word?_put, wordOf?_ofWord] at held
    constructor
    · intro other
      refine ⟨available - amount, ?_, rfl⟩
      rw [Lookup.word?_put_balance other.symm, Lookup.word?_put, if_pos rfl, wordOf?_ofWord]
    · rintro rfl
      rw [if_pos rfl] at held
      refine ⟨available, ?_, enough, rfl⟩
      rw [Lookup.word?_put, if_pos rfl, wordOf?_ofWord, ← Option.some.inj held,
        UInt64.sub_add_cancel]
  | @sweep recipient swept received other funds held fits =>
    have apart : Key.balance sender ≠ Key.balance recipient :=
      fun same => other (Key.balance_injective same).symm
    refine ⟨?_, swept, rfl, ?_⟩
    · rw [Lookup.put_of_ne apart, Lookup.put, Function.update_self]
    · rw [Lookup.number_put, if_pos rfl, numberOf_ofWord, toNat_add_of_fits fits,
        Lookup.number_of_word? held]
  | getBalance funds => exact ⟨_, funds, rfl⟩
  | nextRound held fits =>
    refine ⟨_, ?_, rfl⟩
    rw [Lookup.word?_put, if_pos rfl, wordOf?_ofWord]

end Call

namespace Vm

/-- In a batch that nobody interrupts, every mined transaction made a call, and what it returned is
read off the state right after it. A transfer returns what the sender has then, unless it is to the
sender: then it returns less, by the amount. A sweep leaves the sender without a balance and returns
by how much the recipient's grew; asking for a balance returns that balance; and starting a round
returns the number of the round. -/
theorem execute_reports {base : StateView} (calm : ∀ key, base.trips key = false)
    (overlay : Overlay) (transactions : List Transaction) :
    ∃ done, execute transactions base overlay .quiet = (.ok done, .quiet) ∧
      ∀ (place : Nat) tx here, transactions[place]? = some tx → done[place]? = some here →
        here.status = .mined →
          ∃ call, Call.decode tx = .ok call ∧ call.Reports tx.sender
            ((Overlay.merge (some overlay) (done.take place)).onto base.get?) here.receipt.returned
            ((Overlay.merge (some overlay) (done.take (place + 1))).onto base.get?) := by
  have ran := execute_quiet calm transactions overlay
  refine ⟨_, ran, fun place tx here stands had mined => ?_⟩
  obtain ⟨effected, after⟩ := effect_of_place (congrArg Prod.fst ran) stands had
  rw [after]
  rw [effected] at mined ⊢
  obtain ⟨call, decoded, moved⟩ := moves_of_mined mined
  exact ⟨call, decoded, moved.reports⟩

theorem sample_reports :
    ∃ paid, execute [Sample.payBob] Sample.genesis.view .empty .quiet = (.ok [paid], .quiet) ∧
      paid.status = .mined ∧
      ((Overlay.merge (some .empty) [paid]).onto Sample.genesis.get?).Spells
        (Key.balance Sample.alice) paid.receipt.returned := by
  obtain ⟨done, ran, reports⟩ :=
    @execute_reports Sample.genesis.view (fun _ => rfl) .empty [Sample.payBob]
  rw [execute_quiet fun _ => rfl, Prod.mk.injEq, Except.ok.injEq] at ran
  obtain ⟨rfl, _⟩ := ran
  refine ⟨_, execute_quiet (fun _ => rfl) _ _, by decide +kernel, ?_⟩
  obtain ⟨call, decoded, reported⟩ := reports 0 _ _ rfl rfl (by decide +kernel)
  have paying : Call.decode Sample.payBob = .ok (.transfer Sample.bob 3) := by decide +kernel
  cases paying.symm.trans decoded
  obtain ⟨told, _⟩ := reported
  exact told (by decide +kernel)

end Vm

namespace Sample

def payer : Address := .ofNat 20 1

def purse : Snapshot :=
  (Snapshot.empty.insert Key.tokenConfig (Bytes.ofWord 5)).insert (.balance payer)
    (Bytes.ofWord 100)

def payOneself : Transaction := (Call.transfer payer 10).toTransaction payer 0

end Sample

theorem Vm.sample_reports_less :
    ∃ paid, execute [Sample.payOneself] Sample.purse.view .empty .quiet = (.ok [paid], .quiet) ∧
      paid.status = .mined ∧ paid.receipt.returned = Bytes.ofWord 90 ∧
      ((Overlay.merge (some .empty) [paid]).onto Sample.purse.get?) (Key.balance Sample.payer) =
        some (Bytes.ofWord 100) ∧
      ¬((Overlay.merge (some .empty) [paid]).onto Sample.purse.get?).Spells
        (Key.balance Sample.payer) paid.receipt.returned := by
  have ran : execute [Sample.payOneself] Sample.purse.view .empty .quiet =
      (.ok [effect Sample.purse.get? Sample.payOneself], .quiet) := by
    rw [execute_quiet fun _ => rfl, Overlay.empty_onto]
    rfl
  have mined : (effect Sample.purse.get? Sample.payOneself).status = .mined := by decide +kernel
  have returned : (effect Sample.purse.get? Sample.payOneself).receipt.returned =
      Bytes.ofWord 90 := by decide +kernel
  have balance : (Overlay.merge (some .empty)
      [effect Sample.purse.get? Sample.payOneself]).onto Sample.purse.get?
        (Key.balance Sample.payer) = some (Bytes.ofWord 100) := by decide +kernel
  refine ⟨_, ran, mined, returned, balance, ?_⟩
  rintro ⟨word, held, spelled⟩
  rw [Lookup.word?, balance, wordOf?_ofWord] at held
  rw [returned, ← Option.some.inj held] at spelled
  exact absurd spelled (by decide)

end GroupedLedger
