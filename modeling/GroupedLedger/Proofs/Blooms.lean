import GroupedLedger.Bloom

namespace GroupedLedger

/-- What is true after a fold of steps that only add to it: true at first, or made so by an item. -/
theorem foldl_iff_exists {α β : Type} {put : α → β → α} {P : α → Prop} {Q : β → Prop}
    {items : List β} (law : ∀ item ∈ items, ∀ state, P (put state item) ↔ P state ∨ Q item)
    (state : α) : P (items.foldl put state) ↔ P state ∨ ∃ item ∈ items, Q item := by
  induction items generalizing state with
  | nil => simp
  | cons first rest ih =>
    rw [List.foldl_cons, ih fun item mem => law item (List.mem_cons_of_mem first mem),
      law first List.mem_cons_self, or_assoc]
    simp

namespace Bloom

theorem ext_getLsbD {a b : Bloom}
    (same : ∀ place, a.bits.getLsbD place = true ↔ b.bits.getLsbD place = true) : a = b := by
  cases a
  cases b
  exact congrArg mk (BitVec.eq_of_getLsbD_eq fun place _ => Bool.eq_iff_iff.mpr (same place))

theorem lt_of_mem_places {digest : Bytes} {place : Nat} (mem : place ∈ places digest) :
    place < 2048 := by
  unfold places at mem
  split at mem
  · simp only [List.mem_cons, List.not_mem_nil, or_false] at mem
    rcases mem with rfl | rfl | rfl
    · exact Nat.mod_lt _ (by decide)
    · exact Nat.mod_lt _ (by decide)
    · exact Nat.mod_lt _ (by decide)
  · exact absurd mem List.not_mem_nil

/-- An input sets the bits that its digest chooses. -/
theorem getLsbD_mask {input : Bytes} {place : Nat} :
    (mask input).getLsbD place = true ↔ place ∈ places (keccak256 input).bytes := by
  have law : ∀ chosen ∈ places (keccak256 input).bytes, ∀ bits : BitVec 2048,
      (bits ||| BitVec.twoPow 2048 chosen).getLsbD place = true ↔
        bits.getLsbD place = true ∨ chosen = place := by
    intro chosen mem bits
    rw [BitVec.getLsbD_or, Bool.or_eq_true, BitVec.getLsbD_twoPow, Bool.and_eq_true,
      decide_eq_true_iff, decide_eq_true_iff, and_iff_right (lt_of_mem_places mem)]
  have folded := foldl_iff_exists (P := fun bits => bits.getLsbD place = true) law 0#2048
  simpa [mask] using folded

theorem getLsbD_ofInputs {inputs : List Bytes} {place : Nat} :
    (ofInputs inputs).bits.getLsbD place = true ↔
      ∃ input ∈ inputs, place ∈ places (keccak256 input).bytes := by
  have law : ∀ input ∈ inputs, ∀ bloom : Bloom, (bloom.insert input).bits.getLsbD place = true ↔
      bloom.bits.getLsbD place = true ∨ place ∈ places (keccak256 input).bytes := by
    intro input _ bloom
    rw [insert, BitVec.getLsbD_or, Bool.or_eq_true, getLsbD_mask]
  have folded := foldl_iff_exists (P := fun bloom => bloom.bits.getLsbD place = true) law empty
  simpa [ofInputs, empty] using folded

theorem contains_iff {bloom : Bloom} {input : Bytes} : bloom.contains input = true ↔
    ∀ place ∈ places (keccak256 input).bytes, bloom.bits.getLsbD place = true := by
  simp only [← getLsbD_mask]
  rw [contains, beq_iff_eq]
  constructor
  · intro same place set
    rw [← same, BitVec.getLsbD_and, Bool.and_eq_true] at set
    exact set.1
  · intro covered
    apply BitVec.eq_of_getLsbD_eq
    intro place _
    rw [BitVec.getLsbD_and]
    cases set : (mask input).getLsbD place with
    | false => exact Bool.and_false _
    | true => rw [covered place set, Bool.and_self]

theorem contains_ofInputs {inputs : List Bytes} {input : Bytes} (mem : input ∈ inputs) :
    (ofInputs inputs).contains input = true :=
  contains_iff.mpr fun _ chosen => getLsbD_ofInputs.mpr ⟨input, mem, chosen⟩

end Bloom
end GroupedLedger
