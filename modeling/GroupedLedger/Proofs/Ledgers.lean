import GroupedLedger.Proofs.Addresses
import GroupedLedger.Proofs.Executions
import Mathlib.Algebra.BigOperators.Group.Finset.Basic
import Mathlib.Algebra.BigOperators.Group.Finset.Piecewise
import Mathlib.Data.Fintype.EquivFin
import Mathlib.Data.Fintype.Pi

namespace GroupedLedger

instance {n : Nat} : Finite (Octets n) := by
  let digits (octets : Octets n) (place : Fin n) : Fin 256 :=
    (octets.bytes.get (place.cast octets.length_bytes.symm)).toFin
  refine Finite.of_injective digits fun a b same => Octets.ext ?_
  apply List.ext_get (by simp)
  intro place ha hb
  exact UInt8.toFin_inj.mp (congrFun same ⟨place, a.length_bytes ▸ ha⟩)

noncomputable instance {n : Nat} : Fintype (Octets n) := Fintype.ofFinite _

/-- The number that is found, where nothing and whatever is no number count for zero. -/
def numberOf (value : Option Value) : Nat := ((wordOf? value).getD 0).toNat

theorem numberOf_of_wordOf? {value : Option Value} {word : UInt64}
    (read : wordOf? value = some word) : numberOf value = word.toNat := by
  rw [numberOf, read]
  rfl

theorem numberOf_ofWord (word : UInt64) : numberOf (some (Bytes.ofWord word)) = word.toNat :=
  numberOf_of_wordOf? (wordOf?_ofWord word)

namespace Lookup

def number (below : Lookup) (key : Key) : Nat := numberOf (below key)

theorem number_of_word? {below : Lookup} {key : Key} {word : UInt64}
    (held : below.word? key = some word) : below.number key = word.toNat :=
  numberOf_of_wordOf? held

theorem number_put (below : Lookup) (key other : Key) (value : Option Value) :
    (below.put key value).number other =
      if other = key then numberOf value else below.number other := by
  by_cases he : other = key
  · subst he
    simp [number]
  · simp [number, he]

theorem word?_put_balance {owner other : Address} (ne : other ≠ owner) (below : Lookup)
    (value : Option Value) : (below.put (Key.balance owner) value).word? (Key.balance other) =
      below.word? (Key.balance other) := by
  rw [word?_put, if_neg fun same => ne (Key.balance_injective same)]

/-- What all owners have together. -/
noncomputable def supply (below : Lookup) : Nat :=
  ∑ owner : Address, below.number (Key.balance owner)

/-- A new balance changes the supply by as much as it differs from the old one. -/
theorem supply_put_balance (below : Lookup) (owner : Address) (value : Option Value) :
    (below.put (Key.balance owner) value).supply + below.number (Key.balance owner) =
      below.supply + numberOf value := by
  have balances : (fun other => (below.put (Key.balance owner) value).number (Key.balance other)) =
      Function.update (fun other => below.number (Key.balance other)) owner (numberOf value) := by
    funext other
    simp only [number_put, Function.update_apply, Key.balance_injective.eq_iff]
  have rest := Finset.add_sum_erase Finset.univ
    (fun other => below.number (Key.balance other)) (Finset.mem_univ owner)
  rw [supply, supply, balances, Finset.sum_update_of_mem (Finset.mem_univ owner),
    Finset.sdiff_singleton_eq_erase]
  omega

theorem supply_put_of_ne {key : Key} (ne : ∀ owner, Key.balance owner ≠ key) (below : Lookup)
    (value : Option Value) : (below.put key value).supply = below.supply := by
  simp only [supply, number_put, ne, if_false]

/-- Only numbers have taken the place of numbers. -/
structure Replaced (before after : Lookup) : Prop where
  kept : ∀ key, before.word? key = none → after key = before key
  numeric : ∀ key, before.word? key ≠ none → after.word? key ≠ none

namespace Replaced

variable {before between after : Lookup}

theorem refl (before : Lookup) : Replaced before before := ⟨fun _ _ => rfl, fun _ held => held⟩

theorem trans (first : Replaced before between) (second : Replaced between after) :
    Replaced before after := by
  constructor
  · intro key none
    have same := first.kept key none
    rw [second.kept key (by rwa [word?, same]), same]
  · exact fun key held => second.numeric key (first.numeric key held)

theorem put {key : Key} {held : UInt64} (read : before.word? key = some held)
    {value : Option Value} {word : UInt64} (written : wordOf? value = some word) :
    Replaced before (before.put key value) := by
  constructor
  · intro other none
    apply put_of_ne
    rintro rfl
    rw [none] at read
    cases read
  · intro other held
    rw [word?_put]
    split
    · rw [written]
      exact Option.some_ne_none word
    · exact held

theorem eq_some_iff (h : Replaced before after) {key : Key} {value : Value}
    (other : Bytes.toWord? value = none) : after key = some value ↔ before key = some value := by
  constructor
  · intro found
    have unread : after.word? key = none := by rw [word?, found]; exact other
    have held : before.word? key = none := Decidable.byContradiction fun held =>
      h.numeric key held unread
    rw [← h.kept key held, found]
  · intro found
    rw [h.kept key (by rw [word?, found]; exact other), found]

end Replaced
end Lookup

/-- What a state has to do with the one before it, if some rounds were started in between. -/
structure Conserved (before after : Lookup) (rounds : Nat) : Prop extends
    Lookup.Replaced before after where
  supply : after.supply = before.supply
  setting : after Key.tokenConfig = before Key.tokenConfig
  round : after.number Key.round = before.number Key.round + rounds
  stuck : before.word? Key.round = none → rounds = 0

namespace Conserved

variable {before between after : Lookup} {m n : Nat}

theorem refl (before : Lookup) : Conserved before before 0 :=
  ⟨.refl before, rfl, rfl, rfl, fun _ => rfl⟩

theorem trans (first : Conserved before between m) (second : Conserved between after n) :
    Conserved before after (m + n) where
  toReplaced := first.toReplaced.trans second.toReplaced
  supply := second.supply.trans first.supply
  setting := second.setting.trans first.setting
  round := by rw [second.round, first.round, Nat.add_assoc]
  stuck none := by
    have same := first.kept _ none
    rw [first.stuck none, second.stuck (by rwa [Lookup.word?, same])]

end Conserved

theorem toNat_add_of_fits {a b : UInt64} (fits : a.toNat + b.toNat < UInt64.size) :
    (a + b).toNat = a.toNat + b.toNat := by
  rw [UInt64.toNat_add]
  exact Nat.mod_eq_of_lt fits

theorem toNat_sub_add_of_le {amount available : UInt64} (enough : amount ≤ available) :
    (available - amount).toNat + amount.toNat = available.toNat := by
  rw [UInt64.toNat_sub_of_le _ _ enough]
  exact Nat.sub_add_cancel (UInt64.le_iff_toNat_le.mp enough)

/-- An amount that is taken off one balance and put on another, or back on the same, is neither made
nor lost. -/
theorem conserved_payment {below : Lookup} {payer payee : Address} {taken given : Option Value}
    {available left received total : UInt64} {amount : Nat}
    (funds : below.word? (Key.balance payer) = some available) (debit : wordOf? taken = some left)
    (held : (below.put (Key.balance payer) taken).word? (Key.balance payee) = some received)
    (credit : wordOf? given = some total) (covered : left.toNat + amount = available.toNat)
    (added : total.toNat = received.toNat + amount) :
    Conserved below ((below.put (Key.balance payer) taken).put (Key.balance payee) given) 0 := by
  have elsewhere : ∀ key, (∀ owner, Key.balance owner ≠ key) →
      (below.put (Key.balance payer) taken).put (Key.balance payee) given key = below key := by
    intro key other
    rw [Lookup.put_of_ne (other payee).symm, Lookup.put_of_ne (other payer).symm]
  refine ⟨(Lookup.Replaced.put funds debit).trans (.put held credit), ?_,
    elsewhere _ Key.balance_ne_tokenConfig, ?_, fun _ => rfl⟩
  · have first := Lookup.supply_put_balance below payer taken
    have second := Lookup.supply_put_balance (below.put (Key.balance payer) taken) payee given
    rw [Lookup.number_of_word? funds, numberOf_of_wordOf? debit] at first
    rw [Lookup.number_of_word? held, numberOf_of_wordOf? credit] at second
    omega
  · rw [Lookup.number, elsewhere _ Key.balance_ne_round]
    rfl

/-- No call makes or loses money, and only a new round counts the round up. -/
theorem Call.Moves.conserved {sender : Address} {below after : Lookup} {call : Call}
    {returned : Value} (moved : call.Moves sender below returned after) :
    Conserved below after call.isSystem.toNat := by
  cases moved with
  | @transfer recipient amount available received debited funds enough debit held fits =>
    subst debit
    exact conserved_payment funds (wordOf?_ofWord _) held (wordOf?_ofWord _)
      (toNat_sub_add_of_le enough) (toNat_add_of_fits fits)
  | @sweep recipient swept received other funds held fits =>
    rw [← Lookup.word?_put_balance other below none] at held
    exact conserved_payment funds wordOf?_none held (wordOf?_ofWord _) (Nat.zero_add _)
      (toNat_add_of_fits fits)
  | getBalance funds => exact .refl below
  | @nextRound number held fits =>
    refine ⟨.put held (wordOf?_ofWord _), ?_, ?_, ?_, ?_⟩
    · exact Lookup.supply_put_of_ne Key.balance_ne_round below _
    · exact Lookup.put_of_ne Key.round_ne_tokenConfig.symm below _
    · rw [Lookup.number_put, if_pos rfl, numberOf_ofWord, Lookup.number_of_word? held,
        toNat_add_of_fits fits]
      rfl
    · intro none
      rw [held] at none
      cases none

def Transaction.startsRound (tx : Transaction) : Bool :=
  match Call.decode tx with
  | .ok call => call.isSystem
  | .error _ => false

/-- How many transactions started a round, by their effects. -/
def roundsStarted (transactions : List Transaction) (effects : List Effect) : Nat :=
  (transactions.zip effects).countP fun (tx, effect) => tx.startsRound && effect.status == .mined

theorem roundsStarted_cons (tx : Transaction) (rest : List Transaction) (effect : Effect)
    (effects : List Effect) : roundsStarted (tx :: rest) (effect :: effects) =
      (tx.startsRound && effect.status == .mined).toNat + roundsStarted rest effects := by
  simp only [roundsStarted, List.zip_cons_cons, List.countP_cons, Bool.toNat, Bool.cond_eq_ite]
  rw [Nat.add_comm]

theorem roundsStarted_append {first rest : List Transaction} {effects others : List Effect}
    (same : first.length = effects.length) :
    roundsStarted (first ++ rest) (effects ++ others) =
      roundsStarted first effects + roundsStarted rest others := by
  rw [roundsStarted, List.zip_append same, List.countP_append]
  rfl

theorem roundsStarted_congr {transactions : List Transaction} {effects others : List Effect}
    (same : effects.map Effect.status = others.map Effect.status) :
    roundsStarted transactions effects = roundsStarted transactions others := by
  have counted : ∀ effects : List Effect, roundsStarted transactions effects =
      (transactions.zip (effects.map Effect.status)).countP
        fun (tx, status) => tx.startsRound && status == .mined := by
    intro effects
    rw [List.zip_map_right, List.countP_map]
    rfl
  rw [counted, counted, same]

theorem roundsStarted_eq_zero {transactions : List Transaction} {effects : List Effect}
    (unmined : ∀ effect ∈ effects, effect.status ≠ .mined) :
    roundsStarted transactions effects = 0 := by
  rw [roundsStarted, List.countP_eq_zero]
  rintro ⟨tx, effect⟩ hm
  simp [unmined effect (List.of_mem_zip hm).2]

namespace Vm

theorem effect_conserved (below : Lookup) (tx : Transaction) :
    Conserved below ((effect below tx).lasting.onto below)
      (tx.startsRound && (effect below tx).status == .mined).toNat := by
  by_cases mined : (effect below tx).status = .mined
  · obtain ⟨call, decoded, moved⟩ := moves_of_mined mined
    have starts : tx.startsRound = call.isSystem := by rw [Transaction.startsRound, decoded]
    rw [starts, mined, beq_self_eq_true, Bool.and_true]
    exact moved.conserved
  · rw [lasting_of_not_mined mined, Overlay.empty_onto, beq_false_of_ne mined, Bool.and_false]
    exact .refl below

/-- A batch of calls keeps what each of its calls keeps. -/
theorem effects_conserved (below : Lookup) (transactions : List Transaction) :
    Conserved below ((Overlay.ofEffects (effects below transactions)).onto below)
      (roundsStarted transactions (effects below transactions)) := by
  induction transactions generalizing below with
  | nil =>
    rw [effects, Overlay.ofEffects_nil, Overlay.empty_onto]
    exact .refl below
  | cons tx rest ih =>
    have later := (effect_conserved below tx).trans (ih ((effect below tx).lasting.onto below))
    rwa [Overlay.onto_onto, ← Overlay.ofEffects_cons, ← roundsStarted_cons] at later

end Vm
end GroupedLedger
