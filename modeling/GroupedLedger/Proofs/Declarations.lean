import GroupedLedger.Proofs.Footprints
import GroupedLedger.Proofs.Receipts

namespace GroupedLedger

/-- What an effect may note and change if its transaction keeps to what it declares. -/
structure Declared (tx : Transaction) (effect : Effect) : Prop where
  id : effect.id = tx.id
  exclusive : effect.Exclusive
  changed : ∀ key ∈ effect.changedKeys, effect.accesses[key]? = some .write
  undecodable : ∀ error, Call.decode tx = .error error → effect.accesses = ∅
  touches : ∀ call, Call.decode tx = .ok call → ∀ key ∈ effect.accesses,
    key ∈ call.resources tx.sender ∨ call.isSystem = false ∧ key = Key.tokenConfig
  changes : ∀ call, Call.decode tx = .ok call → ∀ key ∈ effect.changedKeys,
    key ∈ call.resources tx.sender
  /-- Token calls read the setting, and no call does anything else to it. -/
  setting : ∀ call, Call.decode tx = .ok call →
    effect.accesses[Key.tokenConfig]? = if call.isSystem then none else some .read

namespace Vm

variable {below : Lookup} {tx : Transaction} {call : Call}

theorem call_confined (below : Lookup) (decoded : Call.decode tx = .ok call) :
    (effect below tx).Confined
      (fun key => key ∈ call.resources tx.sender ∨ call.isSystem = false ∧ key = Key.tokenConfig)
      (· ∈ call.resources tx.sender) := by
  apply effect_confined
  rw [Transaction.procedure, decoded]
  exact call.procedure_within tx.sender

theorem accesses_of_undecodable {error : CallError} (below : Lookup)
    (undecodable : Call.decode tx = .error error) : (effect below tx).accesses = ∅ := by
  have procedure : tx.procedure = .fail (.undecodable error) := by
    rw [Transaction.procedure, undecodable]
  rw [effect, transact_eq, accesses_finished, procedure]
  rfl

theorem tokenConfig_mem_accesses (below : Lookup) (decoded : Call.decode tx = .ok call)
    (token : call.isSystem = false) : Key.tokenConfig ∈ (effect below tx).accesses := by
  rw [effect, transact_eq, accesses_finished, Transaction.procedure, decoded]
  simp only [Call.procedure, token, Bool.false_eq_true, if_false]
  exact Procedure.mem_accesses_readWord_bind

theorem accesses_tokenConfig (below : Lookup) (decoded : Call.decode tx = .ok call) :
    (effect below tx).accesses[Key.tokenConfig]? = if call.isSystem then none else some .read := by
  have confined := call_confined below decoded
  have foreign := call.tokenConfig_not_mem_resources tx.sender
  cases system : call.isSystem with
  | true =>
    rw [if_pos rfl, Option.eq_none_iff_forall_ne_some]
    intro access found
    rcases confined.noted _ _ found with ⟨_, own | token⟩ | ⟨_, own⟩
    · exact foreign own
    · simp [system] at token
    · exact foreign own
  | false =>
    have touched := tokenConfig_mem_accesses below decoded system
    obtain ⟨access, found⟩ := Option.isSome_iff_exists.mp
      (Std.ExtTreeMap.mem_iff_isSome_getElem?.mp touched)
    -- Noted as written to, the setting would have to be one of the call's own keys.
    rcases confined.noted _ _ found with ⟨rfl, _⟩ | ⟨_, own⟩
    · exact found
    · exact absurd own foreign

theorem effect_declared (below : Lookup) (tx : Transaction) : Declared tx (effect below tx) where
  id := effect_id below tx
  exclusive := (effect_sealed below tx).exclusive
  changed := (effect_confined below tx.procedure_within).changed
  undecodable _ := accesses_of_undecodable below
  touches _ decoded _ touched := ((call_confined below decoded).may_touch touched).elim id .inl
  changes _ decoded _ changed := (call_confined below decoded).may_change changed
  setting _ := accesses_tokenConfig below

theorem effects_declared (below : Lookup) (transactions : List Transaction) :
    List.Forall₂ Declared transactions (effects below transactions) := by
  induction transactions generalizing below with
  | nil => exact .nil
  | cons tx rest ih => exact .cons (effect_declared below tx) (ih _)

/-- Whenever the contracts answer a batch with effects, these pass the check of whoever asked, one a
transaction and in order, and each keeps to the keys that its transaction declares. The state, what
is pending on it, and the signal may be anything. -/
theorem execute_declared {transactions : List Transaction} {base : StateView} {overlay : Overlay}
    {token : Token} {effects : List Effect}
    (ok : (execute transactions base overlay token).1 = .ok effects) :
    effects.map Effect.id = transactions.map Transaction.id ∧
    (∀ phase, checkEffects phase transactions effects = .ok effects) ∧
    List.Forall₂ Declared transactions effects := by
  rw [execute_ok ok]
  refine ⟨effects_map_id _ _, fun phase => ?_, effects_declared _ _⟩
  simp only [checkEffects, effects_fine]

/-- A payment that breaks off after it was taken off, and a transaction to no contract at all. -/
theorem sample_declared :
    ∃ effects, execute Sample.block Sample.spoiled.view .empty .quiet = (.ok effects, .quiet) ∧
      (∀ phase, checkEffects phase Sample.block effects = .ok effects) ∧
      List.Forall₂ Declared Sample.block effects := by
  have calm : ∀ key, Sample.spoiled.view.trips key = false := fun _ => rfl
  have ran := execute_quiet calm Sample.block .empty
  obtain ⟨_, checked, declared⟩ := execute_declared (congrArg Prod.fst ran)
  exact ⟨_, ran, checked, declared⟩

end Vm
end GroupedLedger
