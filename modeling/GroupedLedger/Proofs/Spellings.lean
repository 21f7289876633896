import GroupedLedger.Contract.Call
import Mathlib.Data.List.Induction

namespace GroupedLedger

namespace Bytes

/-- Bytes are written again as the number they hold. -/
theorem bigEndian_ofBigEndian (bytes : Bytes) :
    bigEndian bytes.length (ofBigEndian bytes) = bytes := by
  induction bytes using List.reverseRecOn with
  | nil => rfl
  | append_singleton front last ih =>
    have small := last.toNat_lt
    have high : (256 * ofBigEndian front + last.toNat) / 256 = ofBigEndian front := by omega
    have low : UInt8.ofNat (256 * ofBigEndian front + last.toNat) = last := by
      apply UInt8.toNat_inj.mp
      rw [UInt8.toNat_ofNat']
      omega
    rw [List.length_append, List.length_singleton, bigEndian, ofBigEndian_append, high, low, ih]

theorem toWord?_eq_some_iff {bytes : Bytes} {word : UInt64} :
    toWord? bytes = some word ↔ bytes = ofWord word := by
  constructor
  · intro read
    unfold toWord? at read
    split at read
    · rename_i eight
      have written := bigEndian_ofBigEndian bytes
      have small := ofBigEndian_bigEndian bytes.length (ofBigEndian bytes)
      rw [written, eight] at small
      rw [eight] at written
      have held : (UInt64.ofNat (ofBigEndian bytes)).toNat = ofBigEndian bytes := by
        rw [UInt64.toNat_ofNat']
        exact small.symm
      rw [← Option.some.inj read, ofWord, held, written]
    · cases read
  · rintro rfl
    exact toWord?_ofWord word

end Bytes

namespace Call

variable {tx : Transaction}

/-- The call that a transaction spells. A token call has to be spelled in full, byte for byte; of
the parameters of a round nothing is said. -/
inductive Spelled (tx : Transaction) : Call → Prop where
  | token {call : Call} (kind : call.isSystem = false) (target : tx.target = tokenContract)
      (method : tx.method = call.method) (params : tx.params = call.params) : Spelled tx call
  | round (target : tx.target = consensusContract) (method : tx.method = "NextRound") :
      Spelled tx .nextRound

def Offers (contract : Address) (method : String) : Prop :=
  ∃ call : Call, call.contract = contract ∧ call.method = method

/-- What a transaction is read as. -/
inductive Decoded (tx : Transaction) : Except CallError Call → Prop where
  | call {call : Call} (spelled : Spelled tx call) : Decoded tx (.ok call)
  | unknownContract (token : tx.target ≠ tokenContract) (consensus : tx.target ≠ consensusContract) :
      Decoded tx (.error (.unknownContract tx.target))
  | unknownMethod (deployed : tx.target = tokenContract ∨ tx.target = consensusContract)
      (foreign : ¬Offers tx.target tx.method) : Decoded tx (.error (.unknownMethod tx.method))
  | malformedParams (offered : Offers tx.target tx.method) (unspelled : ∀ call, ¬Spelled tx call) :
      Decoded tx (.error (.malformedParams tx.method tx.params.length))

theorem params_transfer_iff {params : Bytes} {recipient : Address} {amount : UInt64} :
    params = (transfer recipient amount).params ↔
      Octets.ofBytes? 20 (params.take 20) = some recipient ∧
        Bytes.toWord? (params.drop 20) = some amount := by
  rw [Octets.ofBytes?_eq_some_iff, Bytes.toWord?_eq_some_iff]
  constructor
  · rintro rfl
    constructor
    · exact List.take_left' recipient.length_bytes
    · exact List.drop_left' recipient.length_bytes
  · rintro ⟨front, back⟩
    rw [← List.take_append_drop 20 params, front, back]
    rfl

theorem tokenContract_ne_consensusContract : tokenContract ≠ consensusContract := by
  decide

/-- Calls of one method are told apart by their parameters. -/
theorem eq_of_params {call other : Call} (method : call.method = other.method)
    (params : call.params = other.params) : call = other := by
  cases call with
  | transfer recipient amount =>
    cases other with
    | transfer target value =>
      obtain ⟨front, back⟩ := params_transfer_iff.mp params
      obtain ⟨front', back'⟩ := params_transfer_iff.mp (rfl : (transfer recipient amount).params = _)
      rw [front, Option.some.injEq] at front'
      rw [back, Option.some.injEq] at back'
      rw [front', back']
    | _ => simp [Call.method] at method
  | sweep recipient =>
    cases other with
    | sweep target => exact congrArg sweep (Octets.ext params)
    | _ => simp [Call.method] at method
  | getBalance owner =>
    cases other with
    | getBalance target => exact congrArg getBalance (Octets.ext params)
    | _ => simp [Call.method] at method
  | nextRound =>
    cases other with
    | nextRound => rfl
    | _ => simp [Call.method] at method

theorem Spelled.unique {call other : Call} (spelled : Spelled tx call)
    (spelledToo : Spelled tx other) : call = other := by
  cases spelled with
  | token kind target method params =>
    cases spelledToo with
    | token kind' target' method' params' =>
      exact eq_of_params (method.symm.trans method') (params.symm.trans params')
    | round target' method' =>
      exact absurd (target.symm.trans target') tokenContract_ne_consensusContract
  | round target method =>
    cases spelledToo with
    | token kind' target' method' params' =>
      exact absurd (target'.symm.trans target) tokenContract_ne_consensusContract
    | round target' method' => rfl

theorem Spelled.offers {call : Call} (spelled : Spelled tx call) : Offers tx.target tx.method := by
  cases spelled with
  | token kind target method params =>
    refine ⟨call, ?_, method.symm⟩
    cases call with
    | nextRound => cases kind
    | _ => exact target.symm
  | round target method => exact ⟨.nextRound, target.symm, method.symm⟩

theorem offers_tokenContract_iff {method : String} :
    Offers tokenContract method ↔ method = "Transfer" ∨ method = "Sweep" ∨ method = "GetBalance" := by
  constructor
  · rintro ⟨call, contract, rfl⟩
    cases call with
    | nextRound => exact absurd contract.symm tokenContract_ne_consensusContract
    | _ => simp [Call.method]
  · rintro (rfl | rfl | rfl)
    · exact ⟨.transfer tokenContract 0, rfl, rfl⟩
    · exact ⟨.sweep tokenContract, rfl, rfl⟩
    · exact ⟨.getBalance tokenContract, rfl, rfl⟩

theorem offers_consensusContract_iff {method : String} :
    Offers consensusContract method ↔ method = "NextRound" := by
  constructor
  · rintro ⟨call, contract, rfl⟩
    cases call with
    | nextRound => rfl
    | _ => exact absurd contract tokenContract_ne_consensusContract
  · rintro rfl
    exact ⟨.nextRound, rfl, rfl⟩

theorem Spelled.of_token {call : Call} (spelled : Spelled tx call)
    (target : tx.target = tokenContract) : tx.method = call.method ∧ tx.params = call.params := by
  cases spelled with
  | token _ _ method params => exact ⟨method, params⟩
  | round consensus _ => exact absurd (target.symm.trans consensus) tokenContract_ne_consensusContract

theorem decoded_ofTokenMethod (target : tx.target = tokenContract) :
    Decoded tx (ofTokenMethod tx.method tx.params) := by
  have malformed (offered : Offers tx.target tx.method)
      (unspelled : ∀ call : Call, tx.method = call.method → tx.params ≠ call.params) :
      Decoded tx (.error (.malformedParams tx.method tx.params.length)) :=
    .malformedParams offered fun call spelled =>
      unspelled call (spelled.of_token target).1 (spelled.of_token target).2
  rw [target, offers_tokenContract_iff] at malformed
  unfold ofTokenMethod
  split
  · rename_i method
    split
    · rename_i front back
      exact .call (.token rfl target method (params_transfer_iff.mpr ⟨front, back⟩))
    · rename_i cut
      rw [method] at malformed
      refine malformed (.inl rfl) fun call same params => ?_
      cases call with
      | transfer recipient amount =>
        obtain ⟨front, back⟩ := params_transfer_iff.mp params
        exact cut recipient amount front back
      | _ => simp [Call.method] at same
  · split
    · rename_i method
      split
      · rename_i whole
        exact .call (.token rfl target method (Octets.ofBytes?_eq_some_iff.mp whole))
      · rename_i cut
        rw [method] at malformed
        refine malformed (.inr (.inl rfl)) fun call same params => ?_
        cases call with
        | sweep recipient => simp [params, Call.params] at cut
        | _ => simp [Call.method] at same
    · split
      · rename_i method
        split
        · rename_i whole
          exact .call (.token rfl target method (Octets.ofBytes?_eq_some_iff.mp whole))
        · rename_i cut
          rw [method] at malformed
          refine malformed (.inr (.inr rfl)) fun call same params => ?_
          cases call with
          | getBalance owner => simp [params, Call.params] at cut
          | _ => simp [Call.method] at same
      · rename_i transfer sweep getBalance
        refine .unknownMethod (.inl target) ?_
        rw [target, offers_tokenContract_iff]
        simp [transfer, sweep, getBalance]

/-- Every transaction is read as what it spells, or refused for what is wrong with it. -/
theorem decoded_decode (tx : Transaction) : Decoded tx (decode tx) := by
  unfold decode
  split
  · rename_i target
    split
    · rename_i method
      exact .call (.round target method)
    · rename_i other
      refine .unknownMethod (.inr target) ?_
      rwa [target, offers_consensusContract_iff]
  · rename_i consensus
    split
    · rename_i target
      exact decoded_ofTokenMethod target
    · rename_i token
      exact .unknownContract token consensus

theorem Offers.deployed {contract : Address} {method : String} (offers : Offers contract method) :
    contract = tokenContract ∨ contract = consensusContract := by
  obtain ⟨call, rfl, _⟩ := offers
  cases call with
  | nextRound => exact .inr rfl
  | _ => exact .inl rfl

/-- A transaction is read in one way only. -/
theorem Decoded.unique {result other : Except CallError Call} (decoded : Decoded tx result)
    (decodedToo : Decoded tx other) : result = other := by
  have deployed (token : tx.target ≠ tokenContract) (consensus : tx.target ≠ consensusContract)
      (at_home : tx.target = tokenContract ∨ tx.target = consensusContract) : False :=
    at_home.elim token consensus
  cases decoded with
  | call spelled =>
    cases decodedToo with
    | call spelledToo => rw [spelled.unique spelledToo]
    | unknownContract token consensus => exact (deployed token consensus spelled.offers.deployed).elim
    | unknownMethod _ foreign => exact absurd spelled.offers foreign
    | malformedParams _ unspelled => exact absurd spelled (unspelled _)
  | unknownContract token consensus =>
    cases decodedToo with
    | call spelled => exact (deployed token consensus spelled.offers.deployed).elim
    | unknownContract _ _ => rfl
    | unknownMethod known _ => exact (deployed token consensus known).elim
    | malformedParams offered _ => exact (deployed token consensus offered.deployed).elim
  | unknownMethod known foreign =>
    cases decodedToo with
    | call spelled => exact absurd spelled.offers foreign
    | unknownContract token consensus => exact (deployed token consensus known).elim
    | unknownMethod _ _ => rfl
    | malformedParams offered _ => exact absurd offered foreign
  | malformedParams offered unspelled =>
    cases decodedToo with
    | call spelled => exact absurd spelled (unspelled _)
    | unknownContract token consensus => exact (deployed token consensus offered.deployed).elim
    | unknownMethod _ foreign => exact absurd offered foreign
    | malformedParams _ _ => rfl

theorem params_of_decode {call : Call} (token : call.isSystem = false)
    (reads : decode tx = .ok call) : tx.params = call.params := by
  have decoded := decoded_decode tx
  rw [reads] at decoded
  obtain ⟨⟨_, _, _, params⟩ | _⟩ := decoded
  · exact params
  · cases token

theorem decode_toTransaction (call : Call) (sender : Address) (nonce : UInt64) :
    decode (call.toTransaction sender nonce) = .ok call := by
  apply (decoded_decode _).unique
  apply Decoded.call
  cases call with
  | nextRound => exact .round rfl rfl
  | _ => exact .token rfl rfl rfl rfl

end Call

/-- The part of a byte string between two offsets, if they are in range. -/
def Bytes.slice? (bytes : Bytes) (first last : Nat) : Option Bytes :=
  if first ≤ last ∧ last ≤ bytes.length then some ((bytes.take last).drop first) else none

namespace Call

/-- The transfer that parameters make, once their length is checked. -/
def cutTransfer? (params : Bytes) : Option (Except CallError Call) :=
  if params.length = 28 then do
    let amount ← Bytes.toWord? (← params.slice? 20 params.length)
    let recipient ← Octets.ofBytes? 20 (← params.slice? 0 20)
    return .ok (.transfer recipient amount)
  else some (.error (.malformedParams "Transfer" params.length))

/-- The call that a method makes whose parameters are an address, once their length is checked. -/
def cutAddress? (method : String) (make : Address → Call) (params : Bytes) :
    Option (Except CallError Call) :=
  if params.length = 20 then (Octets.ofBytes? 20 params).map fun address => .ok (make address)
  else some (.error (.malformedParams method params.length))

/-- Reads a transaction by cutting its parameters at fixed offsets. It gives nothing where an offset
is out of range or a part does not have the length of what it is read as. -/
def cut? (tx : Transaction) : Option (Except CallError Call) :=
  if tx.target = consensusContract then
    if tx.method = "NextRound" then some (.ok .nextRound)
    else some (.error (.unknownMethod tx.method))
  else if tx.target = tokenContract then
    if tx.method = "Transfer" then cutTransfer? tx.params
    else if tx.method = "Sweep" then cutAddress? "Sweep" .sweep tx.params
    else if tx.method = "GetBalance" then cutAddress? "GetBalance" .getBalance tx.params
    else some (.error (.unknownMethod tx.method))
  else some (.error (.unknownContract tx.target))

theorem cutTransfer?_eq (params : Bytes) :
    cutTransfer? params =
      some (match Octets.ofBytes? 20 (params.take 20), Bytes.toWord? (params.drop 20) with
        | some recipient, some amount => .ok (.transfer recipient amount)
        | _, _ => .error (.malformedParams "Transfer" params.length)) := by
  unfold cutTransfer?
  split
  · rename_i fits
    have front : (params.take 20).length = 20 := by simp [fits]
    have back : (params.drop 20).length = 8 := by simp [fits]
    have whole : params.take 28 = params := List.take_of_length_le (Nat.le_of_eq fits)
    simp [Bytes.slice?, Octets.ofBytes?, Bytes.toWord?, fits, front, back, whole]
  · rename_i other
    have back : Bytes.toWord? (params.drop 20) = none := by
      apply if_neg
      rw [List.length_drop]
      omega
    rw [back]
    cases Octets.ofBytes? 20 (params.take 20) <;> rfl

theorem cutAddress?_eq (method : String) (make : Address → Call) (params : Bytes) :
    cutAddress? method make params = some (match Octets.ofBytes? 20 params with
      | some address => .ok (make address)
      | none => .error (.malformedParams method params.length)) := by
  unfold cutAddress? Octets.ofBytes?
  split <;> rfl

/-- Once the length is checked, every cut is in range. -/
theorem cut?_eq (tx : Transaction) : cut? tx = some (decode tx) := by
  unfold cut? decode ofTokenMethod
  split
  · split <;> rfl
  · split
    · split
      · exact cutTransfer?_eq tx.params
      · split
        · exact cutAddress?_eq "Sweep" sweep tx.params
        · split
          · exact cutAddress?_eq "GetBalance" getBalance tx.params
          · rfl
    · rfl

/-- Reading a transaction undoes writing a call. A transaction is read as a call exactly if it
spells it, and otherwise refused: for its target if there is no contract, for its method if the
contract does not have it, and for the length of its parameters if nothing else is wrong. Cutting
the parameters at fixed offsets comes to the same and never leaves their range. No two spellings of
the parameters are read as one token call. -/
theorem decode_exactly :
    (∀ (call : Call) (sender : Address) (nonce : UInt64),
      decode (call.toTransaction sender nonce) = .ok call) ∧
    ∀ tx : Transaction,
      cut? tx = some (decode tx) ∧
      (∀ result, decode tx = result ↔ Decoded tx result) ∧
      ∀ (other : Transaction) (call : Call), call.isSystem = false →
        decode tx = .ok call → decode other = .ok call → tx.params = other.params := by
  refine ⟨decode_toTransaction, fun tx => ⟨cut?_eq tx, fun result => ⟨?_, ?_⟩, ?_⟩⟩
  · rintro rfl
    exact decoded_decode tx
  · exact (decoded_decode tx).unique
  · intro other call token reads readsToo
    rw [params_of_decode token reads, params_of_decode token readsToo]

end Call

end GroupedLedger
