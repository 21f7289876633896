import GroupedLedger.Proofs.Batches
import Mathlib.Logic.Function.Basic

namespace GroupedLedger

/-- The number that is found: nothing means zero, and anything but eight bytes is no number. -/
def wordOf? : Option Value → Option UInt64
  | none => some 0
  | some value => Bytes.toWord? value

@[simp] theorem wordOf?_none : wordOf? none = some 0 := rfl

@[simp] theorem wordOf?_ofWord (word : UInt64) : wordOf? (some (Bytes.ofWord word)) = some word :=
  Bytes.toWord?_ofWord word

namespace Lookup

def word? (below : Lookup) (key : Key) : Option UInt64 := wordOf? (below key)

abbrev put (below : Lookup) (key : Key) (value : Option Value) : Lookup :=
  Function.update below key value

theorem word?_put (below : Lookup) (key other : Key) (value : Option Value) :
    (below.put key value).word? other = if other = key then wordOf? value else below.word? other := by
  by_cases he : other = key
  · subst he
    simp [word?]
  · simp [word?, he]

theorem put_of_ne {key other : Key} (ne : other ≠ key) (below : Lookup) (value : Option Value) :
    below.put key value other = below other := Function.update_of_ne ne value below

end Lookup

namespace Effect

variable {effect : Effect}

theorem onto_write (effect : Effect) (key : Key) (value : Value) (below : Lookup) :
    (effect.write key value).overlay.onto below = (effect.overlay.onto below).put key (some value) := by
  funext other
  rw [overlay_write]
  by_cases he : key = other
  · subst he
    simp [Overlay.onto_eq]
  · simp [Overlay.onto_eq, he, Ne.symm he]

theorem onto_delete (effect : Effect) (key : Key) (below : Lookup) :
    (effect.delete key).overlay.onto below = (effect.overlay.onto below).put key none := by
  funext other
  rw [overlay_delete]
  by_cases he : key = other
  · subst he
    simp [Overlay.onto_eq]
  · simp [Overlay.onto_eq, he, Ne.symm he]

theorem onto_fresh (id : Digest) (below : Lookup) : (fresh id).overlay.onto below = below := by
  rw [overlay_fresh, Overlay.empty_onto]

end Effect

namespace Procedure

variable {α β : Type}

/-- Runs a procedure on a state that it changes as it goes. -/
def exec : Procedure α → Lookup → Except CallFailure α × Lookup
  | .done result, below => (.ok result, below)
  | .fail failure, below => (.error failure, below)
  | .read key next, below => (next (below key)).exec below
  | .write key value next, below => next.exec (below.put key (some value))
  | .delete key next, below => next.exec (below.put key none)

/-- What a procedure reads is found through what its effect leaves pending. -/
theorem read_frame {frame : Frame} (exclusive : frame.effect.Exclusive) (state : StateView)
    (key : Key) :
    frame.read state key = (frame.effect.overlay.onto state.get? key,
      ⟨frame.effect.read key, frame.tripped ||
        (state.through frame.effect.overlay.read).trips key⟩) := by
  have layer : frame.effect.own? = frame.effect.overlay.read := funext exclusive.own?_eq
  rw [Frame.read, layer]
  rfl

/-- A run that notes its changes ends as one that makes them. -/
theorem run_exec (p : Procedure α) (state : StateView) (frame : Frame)
    (exclusive : frame.effect.Exclusive) :
    ((p.run state frame).1, (p.run state frame).2.effect.overlay.onto state.get?) =
      p.exec (frame.effect.overlay.onto state.get?) := by
  induction p generalizing frame with
  | done _ => rfl
  | fail _ => rfl
  | read key next ih =>
    simp only [run, read_frame exclusive, exec]
    exact ih _ _ exclusive
  | write key value next ih =>
    have later := ih { frame with effect := frame.effect.write key value }
      (exclusive.write key value)
    rwa [Effect.onto_write] at later
  | delete key next ih =>
    have later := ih { frame with effect := frame.effect.delete key }
      (exclusive.delete key)
    rwa [Effect.onto_delete] at later

theorem exec_read_bind (key : Key) (found : Option Value → Procedure α) (next : α → Procedure β)
    (below : Lookup) :
    (read key found >>= next).exec below = (found (below key) >>= next).exec below := rfl

theorem exec_readWord_bind (key : Key) (next : UInt64 → Procedure β) (below : Lookup) :
    (readWord key >>= next).exec below = match below.word? key with
      | some word => (next word).exec below
      | none => (.error (.corruptValue key), below) := by
  rw [readWord, exec_read_bind, Lookup.word?]
  cases below key with
  | none => rfl
  | some value =>
    simp only [wordOf?]
    cases Bytes.toWord? value <;> rfl

theorem exec_require_bind (condition : Bool) (failure : CallFailure) (next : Unit → Procedure β)
    (below : Lookup) : (require condition failure >>= next).exec below =
      if condition then (next ()).exec below else (.error failure, below) := by
  cases condition <;> rfl

theorem exec_add_bind (a b : UInt64) (next : UInt64 → Procedure β) (below : Lookup) :
    (add a b >>= next).exec below =
      if a.toNat + b.toNat < UInt64.size then (next (a + b)).exec below
      else (.error .overflow, below) := by
  unfold add
  split <;> rfl

/-- Whether what a procedure comes to on a state, and the state then, are as told. -/
def Meets (p : Procedure α) (below : Lookup)
    (told : Except CallFailure α × Lookup → Prop) : Prop :=
  told (p.exec below)

/-- Nothing is told of any failure but that a sum does not fit. -/
def Spares (told : Except CallFailure α × Lookup → Prop) : Prop :=
  ∀ failure after, failure ≠ .overflow → ¬told (.error failure, after)

theorem spares_ok {returned : α} {after : Lookup} : Spares (· = (.ok returned, after)) :=
  fun _ _ _ => nofun

section Inversion

variable {key : Key} {below : Lookup} {told : Except CallFailure β × Lookup → Prop}

theorem meets_readWord_bind (spares : Spares told) {next : UInt64 → Procedure β} :
    (readWord key >>= next).Meets below told ↔
      ∃ word, below.word? key = some word ∧ (next word).Meets below told := by
  have corrupt := spares (.corruptValue key) below nofun
  rw [Meets, exec_readWord_bind]
  cases below.word? key <;> simp [Meets, corrupt]

theorem meets_require_bind (spares : Spares told) {condition : Bool} {failure : CallFailure}
    (other : failure ≠ .overflow) {next : Unit → Procedure β} :
    (require condition failure >>= next).Meets below told ↔
      condition = true ∧ (next ()).Meets below told := by
  rw [Meets, exec_require_bind]
  cases condition <;> simp [Meets, spares failure below other]

theorem meets_add_bind (spared : ¬told (.error .overflow, below)) {a b : UInt64}
    {next : UInt64 → Procedure β} : (add a b >>= next).Meets below told ↔
      a.toNat + b.toNat < UInt64.size ∧ (next (a + b)).Meets below told := by
  rw [Meets, exec_add_bind]
  split <;> simp [Meets, *]

theorem meets_add_bind_of_fits {a b : UInt64} (fits : a.toNat + b.toNat < UInt64.size)
    {next : UInt64 → Procedure β} :
    (add a b >>= next).Meets below told ↔ (next (a + b)).Meets below told := by
  rw [Meets, exec_add_bind, if_pos fits, Meets]

theorem meets_writeWord_bind {word : UInt64} {next : Unit → Procedure β} :
    (writeWord key word >>= next).Meets below told ↔
      (next ()).Meets (below.put key (some (Bytes.ofWord word))) told := Iff.rfl

end Inversion

end Procedure

namespace Call

/-- What a call that comes to an end returns, and what the state is after it. -/
inductive Moves (sender : Address) (below : Lookup) : Call → Value → Lookup → Prop where
  /-- The amount is taken off the sender before the recipient's balance is read. -/
  | transfer {recipient : Address} {amount available received : UInt64} {debited : Lookup}
      (funds : below.word? (Key.balance sender) = some available) (enough : amount ≤ available)
      (debit : debited =
        below.put (Key.balance sender) (some (Bytes.ofWord (available - amount))))
      (held : debited.word? (Key.balance recipient) = some received)
      (fits : received.toNat + amount.toNat < UInt64.size) :
      Moves sender below (.transfer recipient amount) (Bytes.ofWord (available - amount))
        (debited.put (Key.balance recipient) (some (Bytes.ofWord (received + amount))))
  | sweep {recipient : Address} {swept received : UInt64} (other : recipient ≠ sender)
      (funds : below.word? (Key.balance sender) = some swept)
      (held : below.word? (Key.balance recipient) = some received)
      (fits : received.toNat + swept.toNat < UInt64.size) :
      Moves sender below (.sweep recipient) (Bytes.ofWord swept)
        ((below.put (Key.balance sender) none).put (Key.balance recipient)
          (some (Bytes.ofWord (received + swept))))
  | getBalance {owner : Address} {held : UInt64}
      (funds : below.word? (Key.balance owner) = some held) :
      Moves sender below (.getBalance owner) (Bytes.ofWord held) below
  | nextRound {round : UInt64} (held : below.word? Key.round = some round)
      (fits : round.toNat + 1 < UInt64.size) :
      Moves sender below .nextRound (Bytes.ofWord (round + 1))
        (below.put Key.round (some (Bytes.ofWord (round + 1))))

variable {sender : Address} {call : Call} {below after : Lookup} {returned : Value}

theorem moves_of_effects (ok : (call.effects sender).Meets below (· = (.ok returned, after))) :
    call.Moves sender below returned after := by
  have spares := @Procedure.spares_ok _ returned after
  cases call with
  | transfer recipient amount =>
    obtain ⟨available, funds, ok⟩ := (Procedure.meets_readWord_bind spares).mp ok
    obtain ⟨enough, ok⟩ := (Procedure.meets_require_bind spares (by nofun)).mp ok
    rw [Procedure.meets_writeWord_bind] at ok
    obtain ⟨received, held, ok⟩ := (Procedure.meets_readWord_bind spares).mp ok
    obtain ⟨fits, ok⟩ := (Procedure.meets_add_bind nofun).mp ok
    cases ok
    exact .transfer funds (of_decide_eq_true enough) rfl held fits
  | sweep recipient =>
    obtain ⟨other, ok⟩ := (Procedure.meets_require_bind spares (by nofun)).mp ok
    obtain ⟨swept, funds, ok⟩ := (Procedure.meets_readWord_bind spares).mp ok
    obtain ⟨received, held, ok⟩ := (Procedure.meets_readWord_bind spares).mp ok
    obtain ⟨fits, ok⟩ := (Procedure.meets_add_bind nofun).mp ok
    cases ok
    exact .sweep (of_decide_eq_true other) funds held fits
  | getBalance owner =>
    obtain ⟨held, funds, ok⟩ := (Procedure.meets_readWord_bind spares).mp ok
    cases ok
    exact .getBalance funds
  | nextRound =>
    obtain ⟨round, held, ok⟩ := (Procedure.meets_readWord_bind spares).mp ok
    obtain ⟨fits, ok⟩ := (Procedure.meets_add_bind nofun).mp ok
    cases ok
    exact .nextRound held fits

theorem moves_of_procedure
    (ok : (call.procedure sender).Meets below (· = (.ok returned, after))) :
    call.Moves sender below returned after := by
  have spares := @Procedure.spares_ok _ returned after
  unfold procedure at ok
  split at ok
  · exact moves_of_effects ok
  · obtain ⟨minimum, _, ok⟩ := (Procedure.meets_readWord_bind spares).mp ok
    cases call with
    | transfer recipient amount =>
      exact moves_of_effects ((Procedure.meets_require_bind spares (by nofun)).mp ok).2
    | _ => exact moves_of_effects ok

end Call

namespace Vm

variable {below : Lookup} {tx : Transaction}

/-- A transaction is mined if its call comes to an end on the state. It then returns what the call
returned and leaves pending what the call changed. -/
theorem effect_of_ok {returned : Value} {after : Lookup}
    (ok : tx.procedure.exec below = (.ok returned, after)) :
    (effect below tx).status = .mined ∧ (effect below tx).receipt.error = none ∧
      (effect below tx).receipt.returned = returned ∧
      (effect below tx).lasting.onto below = after := by
  have same := tx.procedure.run_exec ⟨below, fun _ => false⟩ ⟨Effect.fresh tx.id, false⟩
    (Effect.exclusive_fresh tx.id)
  rw [Effect.onto_fresh, ok, Prod.mk.injEq] at same
  rw [effect, transact_eq, same.1]
  exact ⟨rfl, rfl, rfl, same.2⟩

/-- Otherwise it fails for the reason that the call failed, and leaves nothing. -/
theorem effect_of_error {failure : CallFailure} {after : Lookup}
    (failed : tx.procedure.exec below = (.error failure, after)) :
    (effect below tx).status = .failed ∧
      (effect below tx).receipt.error = some failure.message ∧
      (effect below tx).lasting = .empty := by
  have same := tx.procedure.run_exec ⟨below, fun _ => false⟩ ⟨Effect.fresh tx.id, false⟩
    (Effect.exclusive_fresh tx.id)
  rw [Effect.onto_fresh, failed, Prod.mk.injEq] at same
  rw [effect, transact_eq, same.1]
  generalize (tx.procedure.run _ _).2.effect = noted
  refine ⟨rfl, rfl, Overlay.ext_read fun key => ?_⟩
  rw [Overlay.read_empty]
  exact Effect.read_lasting_eq_none fun changed =>
    Effect.not_mem_changedKeys_clear noted key changed

/-- A mined transaction made a call, and the state after it is the state after that call. -/
theorem moves_of_mined (mined : (effect below tx).status = .mined) :
    ∃ call, Call.decode tx = .ok call ∧ call.Moves tx.sender below
      (effect below tx).receipt.returned ((effect below tx).lasting.onto below) := by
  rcases ran : tx.procedure.exec below with ⟨_ | returned, after⟩
  · rw [(effect_of_error ran).1] at mined
    cases mined
  · obtain ⟨_, _, answered, changed⟩ := effect_of_ok ran
    rw [answered, changed]
    unfold Transaction.procedure at ran
    cases decoded : Call.decode tx with
    | ok call =>
      rw [decoded] at ran
      exact ⟨call, rfl, Call.moves_of_procedure ran⟩
    | error error =>
      rw [decoded] at ran
      cases ran

theorem lasting_of_not_mined (unmined : (effect below tx).status ≠ .mined) :
    (effect below tx).lasting = .empty := by
  rcases ran : tx.procedure.exec below with ⟨_ | returned, after⟩
  · exact (effect_of_error ran).2.2
  · exact absurd (effect_of_ok ran).1 unmined

end Vm
end GroupedLedger
