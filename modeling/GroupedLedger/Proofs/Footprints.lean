import GroupedLedger.Proofs.Batches

namespace GroupedLedger

namespace Bytes

theorem ofText_append (a b : String) : ofText (a ++ b) = ofText a ++ ofText b := by
  simp [ofText, String.toByteArray_append]

end Bytes

namespace Key

/-- Texts that differ where both have a character name different keys. -/
theorem ofText_append_ne {head text : String} {count : Nat}
    (inside : count ≤ (Bytes.ofText head).length)
    (differ : (Bytes.ofText head).take count ≠ (Bytes.ofText text).take count) (tail : String) :
    ofText (head ++ tail) ≠ ofText text := by
  intro same
  apply differ
  have same := congrArg (List.take count) (Key.mk.inj same)
  rwa [Bytes.ofText_append, List.take_append_of_le_length inside] at same

theorem ofText_balance_ne_tokenConfig (owner : String) :
    ofText ("token/balance/" ++ owner) ≠ tokenConfig :=
  @ofText_append_ne "token/balance/" "token/config" 7 (by decide +kernel) (by decide +kernel) owner

theorem ofText_balance_ne_round (owner : String) : ofText ("token/balance/" ++ owner) ≠ round :=
  @ofText_append_ne "token/balance/" "consensus/round" 1 (by decide +kernel) (by decide +kernel) owner

theorem balance_ne_tokenConfig (owner : Address) : balance owner ≠ tokenConfig :=
  ofText_balance_ne_tokenConfig owner.text

theorem balance_ne_round (owner : Address) : balance owner ≠ round :=
  ofText_balance_ne_round owner.text

theorem round_ne_tokenConfig : round ≠ tokenConfig := by
  decide +kernel

end Key

namespace Call

variable {sender : Address} {call : Call} {key : Key}

/-- The accounts whose balances a call from `sender` may read or change. Who asks for a balance need
not be among them. -/
def accounts (sender : Address) : Call → List Address
  | .transfer recipient _ => [sender, recipient]
  | .sweep recipient => [sender, recipient]
  | .getBalance owner => [owner]
  | .nextRound => []

theorem resources_of_token (token : call.isSystem = false) :
    call.resources sender = (call.accounts sender).map Key.balance := by
  cases call with
  | nextRound => cases token
  | _ => rfl

/-- A key of a call is the round, or the balance of an account that the call names. -/
theorem mem_resources_iff :
    key ∈ call.resources sender ↔
      call = .nextRound ∧ key = Key.round ∨
        ∃ account ∈ call.accounts sender, Key.balance account = key := by
  cases call with
  | nextRound => simp [resources, accounts]
  | _ =>
    rw [resources_of_token rfl, List.mem_map]
    simp

theorem tokenConfig_not_mem_resources (sender : Address) (call : Call) :
    Key.tokenConfig ∉ call.resources sender := by
  intro mem
  rcases mem_resources_iff.mp mem with ⟨_, same⟩ | ⟨owner, _, same⟩
  · exact Key.round_ne_tokenConfig same.symm
  · exact Key.balance_ne_tokenConfig owner same

/-- Past the setting, a call reads and changes only its own keys. -/
theorem effects_within {reads changes : Key → Prop} (sender : Address) (call : Call)
    (read : ∀ key ∈ call.resources sender, reads key)
    (change : ∀ key ∈ call.resources sender, changes key) :
    (call.effects sender).Within reads changes := by
  cases call with
  | transfer recipient amount =>
    have source : Key.balance sender ∈ (transfer recipient amount).resources sender := by
      simp [resources]
    have target : Key.balance recipient ∈ (transfer recipient amount).resources sender := by
      simp [resources]
    refine .bind (Procedure.within_readWord (read _ source)) fun _ => ?_
    refine .bind Procedure.within_require fun _ => ?_
    refine .bind (Procedure.within_writeWord (change _ source)) fun _ => ?_
    refine .bind (Procedure.within_readWord (read _ target)) fun _ => ?_
    refine .bind Procedure.within_add fun _ => ?_
    exact .bind (Procedure.within_writeWord (change _ target)) fun _ => trivial
  | sweep recipient =>
    have source : Key.balance sender ∈ (sweep recipient).resources sender := by simp [resources]
    have target : Key.balance recipient ∈ (sweep recipient).resources sender := by simp [resources]
    refine .bind Procedure.within_require fun _ => ?_
    refine .bind (Procedure.within_readWord (read _ source)) fun _ => ?_
    refine .bind (Procedure.within_readWord (read _ target)) fun _ => ?_
    refine .bind Procedure.within_add fun _ => ?_
    refine .bind (Procedure.within_remove (change _ source)) fun _ => ?_
    exact .bind (Procedure.within_writeWord (change _ target)) fun _ => trivial
  | getBalance owner =>
    have own : Key.balance owner ∈ (getBalance owner).resources sender := by simp [resources]
    exact .bind (Procedure.within_readWord (read _ own)) fun _ => trivial
  | nextRound =>
    have own : Key.round ∈ nextRound.resources sender := by simp [resources]
    refine .bind (Procedure.within_readWord (read _ own)) fun _ => ?_
    refine .bind Procedure.within_add fun _ => ?_
    exact .bind (Procedure.within_writeWord (change _ own)) fun _ => trivial

theorem procedure_within (sender : Address) (call : Call) :
    (call.procedure sender).Within
      (fun key => key ∈ call.resources sender ∨ call.isSystem = false ∧ key = Key.tokenConfig)
      (· ∈ call.resources sender) := by
  have own := @effects_within
    (fun key => key ∈ call.resources sender ∨ call.isSystem = false ∧ key = Key.tokenConfig)
    (· ∈ call.resources sender) sender call (fun _ hk => .inl hk) (fun _ hk => hk)
  unfold procedure
  split
  · exact own
  · rename_i token
    have setting : call.isSystem = false ∧ Key.tokenConfig = Key.tokenConfig :=
      ⟨Bool.eq_false_iff.mpr token, rfl⟩
    refine .bind (Procedure.within_readWord (.inr setting)) fun minimum => ?_
    refine .bind ?_ fun _ => own
    cases call with
    | transfer recipient amount => exact Procedure.within_require
    | _ => trivial

end Call

namespace Transaction

/-- The keys of its own that a transaction may read or change. Without a call it has none. -/
def resources (tx : Transaction) : List Key :=
  match Call.decode tx with
  | .ok call => call.resources tx.sender
  | .error _ => []

theorem tokenConfig_not_mem_resources (tx : Transaction) : Key.tokenConfig ∉ tx.resources := by
  unfold resources
  split
  · exact Call.tokenConfig_not_mem_resources _ _
  · exact List.not_mem_nil

theorem procedure_within (tx : Transaction) :
    tx.procedure.Within (fun key => key ∈ tx.resources ∨ key = Key.tokenConfig)
      (· ∈ tx.resources) := by
  unfold procedure resources
  cases Call.decode tx with
  | ok call =>
    exact (Call.procedure_within _ _).mono (fun _ h => h.imp_right And.right) fun _ h => h
  | error error => trivial

/-- Whether two transactions have no key of their own in common. -/
def Apart (a b : Transaction) : Prop := ∀ key ∈ a.resources, key ∉ b.resources

theorem Apart.symm {a b : Transaction} (apart : a.Apart b) : b.Apart a :=
  fun key hb ha => apart key ha hb

end Transaction

namespace Vm

variable {below : Lookup} {tx a b : Transaction} {key : Key}

theorem mem_resources_of_changed (changed : key ∈ (effect below tx).changedKeys) :
    key ∈ tx.resources :=
  (effect_confined below tx.procedure_within).may_change changed

theorem mem_resources_of_accessed (touched : key ∈ (effect below tx).accesses) :
    key ∈ tx.resources ∨ key = Key.tokenConfig :=
  ((effect_confined below tx.procedure_within).may_touch touched).elim id .inl

/-- No transaction changes what another one touches that has no key in common with it. -/
theorem not_changed_of_apart {other : Lookup} (apart : a.Apart b)
    (touched : key ∈ (effect other b).accesses) : key ∉ (effect below a).changedKeys := by
  intro changed
  have own := mem_resources_of_changed changed
  rcases mem_resources_of_accessed touched with hb | rfl
  · exact apart key own hb
  · exact a.tokenConfig_not_mem_resources own

/-- A transaction does not notice one before it that has no key in common with it. -/
theorem effect_of_apart (apart : a.Apart b) :
    effect ((effect below a).lasting.onto below) b = effect below b := by
  apply effect_congr
  intro key touched
  apply Overlay.onto_of_unread
  exact Effect.read_lasting_eq_none (not_changed_of_apart apart touched)

/-- Nor does it matter which of the two comes first for what they leave. -/
theorem lasting_comm {other : Lookup} (apart : a.Apart b) :
    (effect below a).lasting.extend (effect other b).lasting =
      (effect other b).lasting.extend (effect below a).lasting := by
  apply Overlay.Disjoint.extend_comm
  intro key
  by_cases changed : key ∈ (effect below a).changedKeys
  · have unchanged : key ∉ (effect other b).changedKeys :=
      fun hb => apart key (mem_resources_of_changed changed) (mem_resources_of_changed hb)
    exact .inr (Effect.read_lasting_eq_none unchanged)
  · exact .inl (Effect.read_lasting_eq_none changed)

end Vm
end GroupedLedger
