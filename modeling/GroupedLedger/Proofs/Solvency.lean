import GroupedLedger.Proofs.Ledgers
import GroupedLedger.Proofs.Runners
import Mathlib.Algebra.Order.BigOperators.Group.Finset

namespace GroupedLedger

namespace Lookup

def Readable (below : Lookup) (key : Key) : Prop :=
  ∀ value, below key = some value → value.length = 8

variable {below : Lookup} {key : Key}

theorem readable_iff : below.Readable key ↔ ∃ word, below.word? key = some word := by
  rw [Readable, word?]
  cases below key with
  | none => simp
  | some value => simp [wordOf?, Bytes.toWord?]

/-- A number is found and is as told if what stands there can be read and is as told. -/
theorem exists_word?_iff {told : Nat → Prop} :
    (∃ word, below.word? key = some word ∧ told word.toNat) ↔
      below.Readable key ∧ told (below.number key) := by
  rw [readable_iff]
  constructor
  · rintro ⟨word, held, fit⟩
    exact ⟨⟨word, held⟩, number_of_word? held ▸ fit⟩
  · rintro ⟨⟨word, held⟩, fit⟩
    exact ⟨word, held, number_of_word? held ▸ fit⟩

theorem readable_put {value : Option Value} {word : UInt64} (written : wordOf? value = some word)
    (key other : Key) : (below.put key value).Readable other ↔ other = key ∨ below.Readable other := by
  simp only [readable_iff, word?_put]
  split
  · rename_i same
    simp [same, written]
  · rename_i apart
    simp [apart]

theorem number_le_supply (below : Lookup) (owner : Address) :
    below.number (Key.balance owner) ≤ below.supply :=
  Finset.single_le_sum (f := fun owner => below.number (Key.balance owner))
    (fun _ _ => Nat.zero_le _) (Finset.mem_univ owner)

/-- What the recipient has once an amount is taken off the sender comes, with that amount, to no
more than all owners have, even if the two are the same. -/
theorem received_add_le_supply {payer payee : Address} {taken : Option Value}
    {available left received : UInt64} {amount : Nat}
    (funds : below.word? (Key.balance payer) = some available) (debit : wordOf? taken = some left)
    (held : (below.put (Key.balance payer) taken).word? (Key.balance payee) = some received)
    (covered : left.toNat + amount = available.toNat) :
    received.toNat + amount ≤ below.supply := by
  have rest := supply_put_balance below payer taken
  rw [number_of_word? funds, numberOf_of_wordOf? debit] at rest
  have share := number_le_supply (below.put (Key.balance payer) taken) payee
  rw [number_of_word? held] at share
  omega

end Lookup

namespace Call

open Procedure

variable {sender recipient : Address} {amount : UInt64} {below : Lookup}
  {told : Except CallFailure Value → Prop}

/-- What a transfer comes to if all balances together fit in a number: it fails only for what it
reads and for its amount, and nothing more is asked of a recipient who is the sender as well. -/
theorem meets_transfer (bounded : below.supply < UInt64.size) (spares : Spares (told ·.1)) :
    ((transfer recipient amount).procedure sender).Meets below (told ·.1) ↔
      ∃ minimum, below.word? Key.tokenConfig = some minimum ∧ minimum ≤ amount ∧
        ∃ available, below.word? (Key.balance sender) = some available ∧ amount ≤ available ∧
          below.Readable (Key.balance recipient) ∧
            told (.ok (Bytes.ofWord (available - amount))) := by
  simp only [procedure, isSystem, checkMinimum, effects, Bool.false_eq_true, if_false,
    meets_readWord_bind spares, meets_require_bind spares, meets_writeWord_bind, ne_eq,
    reduceCtorEq, not_false_eq_true, decide_eq_true_eq]
  refine exists_congr fun minimum => and_congr_right fun _ => and_congr_right fun _ =>
    exists_congr fun available => and_congr_right fun funds => and_congr_right fun enough => ?_
  have debit := wordOf?_ofWord (available - amount)
  have readable : (below.put (Key.balance sender)
      (some (Bytes.ofWord (available - amount)))).Readable (Key.balance recipient) ↔
        below.Readable (Key.balance recipient) := by
    rw [Lookup.readable_put debit]
    refine or_iff_right_of_imp fun same => ?_
    rw [same]
    exact Lookup.readable_iff.mpr ⟨available, funds⟩
  rw [← readable, Lookup.readable_iff, ← exists_and_right]
  refine exists_congr fun received => and_congr_right fun held => ?_
  have share := Lookup.received_add_le_supply funds debit held (toNat_sub_add_of_le enough)
  exact meets_add_bind_of_fits (share.trans_lt bounded)

/-- No token call overflows if all balances together fit in a number. -/
theorem exec_ne_overflow {call : Call} (token : call.isSystem = false)
    (bounded : below.supply < UInt64.size) :
    ((call.procedure sender).exec below).1 ≠ .error .overflow := by
  have spares : @Spares Value (·.1 = .error .overflow) :=
    fun failure _ other same => other (Except.error.inj same)
  intro overflow
  change (call.procedure sender).Meets below (·.1 = .error .overflow) at overflow
  cases call with
  | transfer recipient amount =>
    obtain ⟨_, _, _, _, _, _, _, ended⟩ :=
      (@meets_transfer _ _ _ _ (· = .error .overflow) bounded spares).mp overflow
    cases ended
  | sweep recipient =>
    obtain ⟨_, _, overflow⟩ := (meets_readWord_bind spares).mp overflow
    obtain ⟨other, overflow⟩ := (meets_require_bind spares (by nofun)).mp overflow
    obtain ⟨swept, funds, overflow⟩ := (meets_readWord_bind spares).mp overflow
    obtain ⟨received, held, overflow⟩ := (meets_readWord_bind spares).mp overflow
    rw [← Lookup.word?_put_balance (of_decide_eq_true other) below none] at held
    have share := Lookup.received_add_le_supply funds wordOf?_none held (Nat.zero_add _)
    cases (meets_add_bind_of_fits (share.trans_lt bounded)).mp overflow
  | getBalance owner =>
    obtain ⟨_, _, overflow⟩ := (meets_readWord_bind spares).mp overflow
    obtain ⟨_, _, ended⟩ := (meets_readWord_bind spares).mp overflow
    cases ended
  | nextRound => cases token

/-- A transfer takes its amount off the sender and puts it on the recipient, as numbers without
bounds, and leaves what others have alone. -/
theorem Moves.paid {returned : Value} {after : Lookup}
    (moved : (Call.transfer recipient amount).Moves sender below returned after) (owner : Address) :
    after.number (Key.balance owner) + (if owner = sender then amount.toNat else 0) =
      below.number (Key.balance owner) + (if owner = recipient then amount.toNat else 0) := by
  cases moved with
  | @transfer _ _ available received debited funds enough debit held fits =>
    subst debit
    have left := toNat_sub_add_of_le enough
    have found := Lookup.number_of_word? held
    rw [Lookup.number_put, numberOf_ofWord] at found
    simp only [Lookup.number_put, numberOf_ofWord, toNat_add_of_fits fits,
      Key.balance_injective.eq_iff] at found ⊢
    rw [← Lookup.number_of_word? funds] at left
    -- the owner is the sender, the recipient, both or neither
    grind

end Call

/-- A text that starts otherwise is another text. -/
theorem append_ne_of_not_isPrefix {start rest whole : String}
    (otherwise : ¬start.toList <+: whole.toList) : start ++ rest ≠ whole := by
  rintro rfl
  rw [String.toList_append] at otherwise
  exact otherwise (List.prefix_append _ _)

theorem CallError.message_ne_overflow (error : CallError) :
    error.message ≠ CallFailure.overflow.message := by
  cases error with
  | unknownContract address => exact append_ne_of_not_isPrefix (by decide)
  | unknownMethod method => exact append_ne_of_not_isPrefix (by decide)
  | malformedParams method length =>
    change "malformed params for " ++ method ++ ": " ++ toString length ++ " bytes" ≠ _
    simp only [String.append_assoc]
    exact append_ne_of_not_isPrefix (by decide)

/-- The text of an overflow tells it from every other failure. -/
theorem CallFailure.message_ne_overflow {failure : CallFailure} (other : failure ≠ .overflow) :
    failure.message ≠ overflow.message := by
  cases failure with
  | undecodable error => exact error.message_ne_overflow
  | insufficientBalance needed available =>
    change "insufficient balance: need " ++ toString needed ++ ", have " ++ toString available ≠ _
    simp only [String.append_assoc]
    exact append_ne_of_not_isPrefix (by decide)
  | belowMinimum amount minimum =>
    change "amount " ++ toString amount ++ " below minimum transfer " ++ toString minimum ≠ _
    simp only [String.append_assoc]
    exact append_ne_of_not_isPrefix (by decide)
  | sweepToSelf => decide
  | overflow => exact absurd rfl other
  | corruptValue key => exact append_ne_of_not_isPrefix (by decide)

namespace Vm

variable {below : Lookup} {tx : Transaction}

theorem mined_iff : (effect below tx).status = .mined ↔
    tx.procedure.Meets below (∃ returned, ·.1 = .ok returned) := by
  rw [Procedure.Meets]
  rcases ran : tx.procedure.exec below with ⟨_ | returned, after⟩
  · simp [(effect_of_error ran).1]
  · simp [(effect_of_ok ran).1]

theorem exec_of_overflow (failed : (effect below tx).receipt.error = some CallFailure.overflow.message) :
    (tx.procedure.exec below).1 = .error .overflow := by
  rcases ran : tx.procedure.exec below with ⟨failure | returned, after⟩
  · rw [(effect_of_error ran).2.1] at failed
    have same : failure = .overflow := Decidable.byContradiction fun other =>
      CallFailure.message_ne_overflow other (Option.some.inj failed)
    rw [same]
  · rw [(effect_of_ok ran).2.1] at failed
    cases failed

/-- What holds of a transaction if all balances together fit in a number: no sum overflows, and the
transfers that are mined are those that can be paid, which they are to the last unit. -/
structure Solvent (before : Lookup) (tx : Transaction) (here : Effect) (after : Lookup) : Prop where
  fits : tx.startsRound = false → here.receipt.error ≠ some CallFailure.overflow.message
  mined : ∀ recipient amount, Call.decode tx = .ok (.transfer recipient amount) →
    (here.status = .mined ↔
      (before.Readable Key.tokenConfig ∧ before.Readable (Key.balance tx.sender) ∧
        before.Readable (Key.balance recipient)) ∧
      before.number Key.tokenConfig ≤ amount.toNat ∧
        amount.toNat ≤ before.number (Key.balance tx.sender))
  paid : ∀ recipient amount, Call.decode tx = .ok (.transfer recipient amount) →
    here.status = .mined → ∀ owner,
      after.number (Key.balance owner) + (if owner = tx.sender then amount.toNat else 0) =
        before.number (Key.balance owner) + (if owner = recipient then amount.toNat else 0)

theorem effect_solvent (bounded : below.supply < UInt64.size) (tx : Transaction) :
    Solvent below tx (effect below tx) ((effect below tx).lasting.onto below) := by
  constructor
  · intro token failed
    have overflow := exec_of_overflow failed
    unfold Transaction.procedure at overflow
    unfold Transaction.startsRound at token
    cases decoded : Call.decode tx with
    | ok call =>
      rw [decoded] at overflow token
      exact Call.exec_ne_overflow token bounded overflow
    | error error =>
      rw [decoded] at overflow
      cases overflow
  · intro recipient amount decoded
    have procedure : tx.procedure = (Call.transfer recipient amount).procedure tx.sender := by
      rw [Transaction.procedure, decoded]
    rw [mined_iff, procedure, @Call.meets_transfer _ _ _ _ (∃ returned, · = .ok returned) bounded
      fun _ _ _ => by simp]
    have setting := @Lookup.exists_word?_iff below Key.tokenConfig (· ≤ amount.toNat)
    have balance := @Lookup.exists_word?_iff below (Key.balance tx.sender) (amount.toNat ≤ ·)
    simp only [UInt64.le_iff_toNat_le]
    constructor
    · rintro ⟨minimum, set, least, available, funds, enough, payee, _⟩
      obtain ⟨config, least⟩ := setting.mp ⟨minimum, set, least⟩
      obtain ⟨payer, enough⟩ := balance.mp ⟨available, funds, enough⟩
      exact ⟨⟨config, payer, payee⟩, least, enough⟩
    · rintro ⟨⟨config, payer, payee⟩, least, enough⟩
      obtain ⟨minimum, set, least⟩ := setting.mpr ⟨config, least⟩
      obtain ⟨available, funds, enough⟩ := balance.mpr ⟨payer, enough⟩
      exact ⟨minimum, set, least, available, funds, enough, payee, _, rfl⟩
  · intro recipient amount decoded mined
    obtain ⟨call, same, moved⟩ := moves_of_mined mined
    cases decoded.symm.trans same
    exact moved.paid

/-- The overlays that batches lead to, each run on what the ones before it left pending. -/
inductive Chain (base : StateView) (start : Overlay) : Overlay → Prop where
  | start : Chain base start start
  | batch {overlay : Overlay} {transactions : List Transaction} {token : Token}
      {effects : List Effect} (earlier : Chain base start overlay)
      (ran : (execute transactions base overlay token).1 = .ok effects) :
      Chain base start (Overlay.merge (some overlay) effects)

variable {base : StateView} {start overlay : Overlay} {transactions : List Transaction}
  {token : Token} {done : List Effect}

/-- As far as a batch has got, it has kept the money together. -/
theorem supply_take (ran : (execute transactions base overlay token).1 = .ok done) (count : Nat) :
    ((Overlay.merge (some overlay) (done.take count)).onto base.get?).supply =
      (overlay.onto base.get?).supply := by
  rw [execute_ok ran, effects_take, Overlay.merge_onto]
  exact (effects_conserved _ _).supply

theorem Chain.supply (chain : Chain base start overlay) :
    (overlay.onto base.get?).supply = (start.onto base.get?).supply := by
  induction chain with
  | start => rfl
  | @batch overlay transactions token effects earlier ran ih =>
    have kept := supply_take ran effects.length
    rw [List.take_length] at kept
    exact kept.trans ih

/-- All transactions that a chain of batches executes are solvent. -/
def ChainSolvent (base : StateView) (start : Overlay) : Prop :=
  ∀ overlay, Chain base start overlay → ∀ transactions token done,
    (execute transactions base overlay token).1 = .ok done →
    ∀ (place : Nat) tx here, transactions[place]? = some tx → done[place]? = some here →
      Solvent ((Overlay.merge (some overlay) (done.take place)).onto base.get?) tx here
        ((Overlay.merge (some overlay) (done.take (place + 1))).onto base.get?)

theorem chainSolvent_of_supply (bounded : (start.onto base.get?).supply < UInt64.size) :
    ChainSolvent base start := by
  intro overlay chain transactions token done ran place tx here stands had
  obtain ⟨effected, after⟩ := effect_of_place ran stands had
  rw [after, effected]
  apply effect_solvent
  rwa [supply_take ran, chain.supply]

end Vm

namespace Snapshot

theorem get?_insert (state : Snapshot) (key : Key) (value : Value) :
    (state.insert key value).get? = Lookup.put state.get? key (some value) := by
  funext other
  simp only [Lookup.put, Function.update_apply, @eq_comm _ other key]
  exact state.get?_commit key other (.changed value)

theorem supply_insert_balance_le (state : Snapshot) (owner : Address) (word : UInt64) :
    Lookup.supply (state.insert (Key.balance owner) (Bytes.ofWord word)).get? ≤
      Lookup.supply state.get? + word.toNat := by
  have funded := Lookup.supply_put_balance state.get? owner (some (Bytes.ofWord word))
  rw [numberOf_ofWord] at funded
  rw [get?_insert]
  omega

theorem supply_foldl_le (state : Snapshot) (owners : List Address) (word : UInt64) :
    Lookup.supply (owners.foldl (fun state owner =>
        state.insert (Key.balance owner) (Bytes.ofWord word)) state).get? ≤
      Lookup.supply state.get? + owners.length * word.toNat := by
  induction owners generalizing state with
  | nil => simp
  | cons owner owners ih =>
    have first := state.supply_insert_balance_le owner word
    have rest := ih (state.insert (Key.balance owner) (Bytes.ofWord word))
    rw [List.foldl_cons, List.length_cons, Nat.succ_mul]
    omega

theorem supply_empty : Lookup.supply empty.get? = 0 := by
  simp [Lookup.supply, Lookup.number, get?, empty, numberOf]

end Snapshot

namespace Workload

/-- All balances at the start come to no more than what the accounts are given. -/
theorem supply_genesis_le (workload : Workload) :
    Lookup.supply workload.genesis.get? ≤ workload.accounts.length * initialBalance.toNat := by
  have settings : Lookup.supply ((Snapshot.empty.insert Key.tokenConfig
      (Bytes.ofWord minTransfer)).insert Key.round (Bytes.ofWord 0)).get? = 0 := by
    rw [Snapshot.get?_insert, Lookup.supply_put_of_ne Key.balance_ne_round, Snapshot.get?_insert,
      Lookup.supply_put_of_ne Key.balance_ne_tokenConfig, Snapshot.supply_empty]
  have funded := Snapshot.supply_foldl_le ((Snapshot.empty.insert Key.tokenConfig
    (Bytes.ofWord minTransfer)).insert Key.round (Bytes.ofWord 0)) workload.accounts initialBalance
  rwa [settings, Nat.zero_add] at funded

end Workload

namespace Runner

/-- A runner by batches runs a chain of batches. -/
theorem sequentialBlock_chain {genesis : Snapshot} {start : Overlay} {state next : Overlay × Tally}
    {blocks : List Block} (chain : Vm.Chain genesis.view start state.1)
    (ran : blocks.foldlM (sequentialBlock genesis) state = .ok next) :
    Vm.Chain genesis.view start next.1 := by
  induction blocks generalizing state with
  | nil =>
    cases ran
    exact chain
  | cons block blocks ih =>
    have batch := Vm.execute_quiet (fun _ => rfl : ∀ key, genesis.view.trips key = false)
      block.transactions state.1
    rw [List.foldlM_cons, sequentialBlock_eq rfl] at ran
    exact ih (chain.batch (congrArg Prod.fst batch)) ran

end Runner

/-- If all balances together fit in a number, then along any chain of batches no token call fails
for a sum that does not fit, a transfer is mined exactly if what it reads are numbers and its amount
is at least the minimum and at most what the sender has, and what is paid is what is received. So it
is for all workloads whose accounts are not given too much, whichever batches are run. -/
theorem Vm.chain_never_overflows :
    (∀ (base : StateView) (start : Overlay), (start.onto base.get?).supply < UInt64.size →
      ChainSolvent base start) ∧
    ∀ workload : Workload,
      workload.accounts.length * Workload.initialBalance.toNat < UInt64.size →
        ChainSolvent workload.genesis.view .empty ∧
        ∀ (count : Nat) overlay tally,
          (workload.blocks.take count).foldlM (Runner.sequentialBlock workload.genesis)
            (.empty, {}) = .ok (overlay, tally) →
          Chain workload.genesis.view .empty overlay := by
  refine ⟨fun base start bounded => chainSolvent_of_supply bounded, fun workload few => ⟨?_, ?_⟩⟩
  · apply chainSolvent_of_supply
    rw [Overlay.empty_onto]
    exact workload.supply_genesis_le.trans_lt few
  · intro count overlay tally ran
    exact Runner.sequentialBlock_chain .start ran

namespace Sample

def hoard : Snapshot := Snapshot.empty.insert (.balance alice) (Bytes.ofWord (-1))

def keepAll : Transaction := (Call.transfer alice (-1)).toTransaction alice 0

def workload : Workload := ⟨[alice, bob], [⟨header, block⟩]⟩

end Sample

theorem Vm.sample_never_overflows :
    (∃ kept, (execute [Sample.keepAll] Sample.hoard.view .empty .quiet).1 = .ok [kept] ∧
      kept.status = .mined ∧
      Lookup.number ((Overlay.merge (some .empty) [kept]).onto Sample.hoard.get?)
        (.balance Sample.alice) = UInt64.size - 1) ∧
    Sample.workload.accounts.length * Workload.initialBalance.toNat < UInt64.size ∧
    ChainSolvent Sample.workload.genesis.view .empty := by
  have few : Sample.workload.accounts.length * Workload.initialBalance.toNat < UInt64.size := by
    decide
  refine ⟨?_, few, (chain_never_overflows.2 Sample.workload few).1⟩
  have bounded : (Overlay.empty.onto Sample.hoard.view.get?).supply < UInt64.size := by
    have funded := Snapshot.empty.supply_insert_balance_le Sample.alice (-1)
    rw [Snapshot.supply_empty] at funded
    rw [Overlay.empty_onto]
    exact funded.trans_lt (by decide)
  have ran : (execute [Sample.keepAll] Sample.hoard.view .empty .quiet).1 =
      .ok [effect Sample.hoard.get? Sample.keepAll] := by
    rw [execute_quiet fun _ => rfl, Overlay.empty_onto]
    rfl
  obtain ⟨_, mined, paid⟩ := chain_never_overflows.1 _ _ bounded _ .start _ _ _ ran 0 _ _ rfl rfl
  have decoded : Call.decode Sample.keepAll = .ok (.transfer Sample.alice (-1)) := by decide +kernel
  have start : (Overlay.merge (some .empty)
      ([effect Sample.hoard.get? Sample.keepAll].take 0)).onto Sample.hoard.view.get? =
        Sample.hoard.get? := by
    rw [List.take_zero, Overlay.merge_onto, Overlay.ofEffects_nil, Overlay.empty_onto,
      Overlay.empty_onto]
    rfl
  rw [start] at mined paid
  have setting : Lookup.Readable Sample.hoard.get? Key.tokenConfig :=
    Lookup.readable_iff.mpr ⟨0, by decide +kernel⟩
  have balance : Lookup.Readable Sample.hoard.get? (Key.balance Sample.alice) :=
    Lookup.readable_iff.mpr ⟨-1, by decide +kernel⟩
  have kept := (mined _ _ decoded).mpr
    ⟨⟨setting, balance, balance⟩, by decide +kernel, by decide +kernel⟩
  have same := paid _ _ decoded kept Sample.alice
  have self : Sample.alice = Sample.keepAll.sender := rfl
  rw [if_pos self, if_pos rfl] at same
  have all : Lookup.number Sample.hoard.get? (Key.balance Sample.alice) = UInt64.size - 1 := by
    decide +kernel
  exact ⟨_, ran, kept, (Nat.add_right_cancel same).trans all⟩

end GroupedLedger
