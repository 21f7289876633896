import GroupedLedger.Proofs.Addresses

namespace GroupedLedger

theorem Bytes.bigEndian_inj {width m n : Nat} (small : m < Nat.pow 256 width)
    (smallToo : n < Nat.pow 256 width) (same : bigEndian width m = bigEndian width n) : m = n := by
  have read := congrArg ofBigEndian same
  rwa [ofBigEndian_bigEndian, ofBigEndian_bigEndian, Nat.mod_eq_of_lt small,
    Nat.mod_eq_of_lt smallToo] at read

namespace Transaction

/-- The length of the method fits in the four bytes that are kept for it. -/
def Short (tx : Transaction) : Prop := (Bytes.ofText tx.method).length < UInt32.size

instance (tx : Transaction) : Decidable tx.Short := inferInstanceAs (Decidable (_ < _))

structure Alike (tx other : Transaction) : Prop where
  sender : tx.sender = other.sender
  target : tx.target = other.target
  method : tx.method = other.method
  params : tx.params = other.params
  nonce : tx.nonce = other.nonce

theorem alike_iff {tx other : Transaction} : tx.Alike other ↔ tx = other := by
  constructor
  · rintro ⟨sender, target, method, params, nonce⟩
    cases tx
    cases other
    simp_all
  · rintro rfl
    exact ⟨rfl, rfl, rfl, rfl, rfl⟩

/-- The fields are told apart from the front up to the method and from the back behind it. -/
theorem alike_of_preimage {tx other : Transaction} (short : tx.Short) (shortToo : other.Short)
    (same : tx.preimage = other.preimage) : tx.Alike other := by
  unfold preimage at same
  obtain ⟨sender, same⟩ := List.append_inj same (by simp)
  obtain ⟨target, same⟩ := List.append_inj same (by simp)
  obtain ⟨length, same⟩ := List.append_inj same (by simp)
  obtain ⟨method, same⟩ := List.append_inj same (@Bytes.bigEndian_inj 4 _ _ short shortToo length)
  obtain ⟨params, nonce⟩ := List.append_inj' same (by simp)
  exact ⟨Octets.ext sender, Octets.ext target, Bytes.ofText_injective method, params,
    Bytes.ofWord_inj.mp nonce⟩

/-- Transactions whose methods are not too long have the same digested bytes only if they agree in
every field. Unless the digested bytes of two of them collide, they have the same digest exactly if
they agree in every field. -/
theorem id_eq_iff_alike {known : Set Transaction} (short : ∀ tx ∈ known, tx.Short) :
    (∀ tx ∈ known, ∀ other ∈ known, tx.preimage = other.preimage → tx.Alike other) ∧
    ((∀ tx ∈ known, ∀ other ∈ known, keccak256 tx.preimage = keccak256 other.preimage →
        tx.preimage = other.preimage) →
      ∀ tx ∈ known, ∀ other ∈ known, tx.id = other.id ↔ tx.Alike other) := by
  have spelled : ∀ tx ∈ known, ∀ other ∈ known, tx.preimage = other.preimage → tx.Alike other :=
    fun tx mem other memToo => alike_of_preimage (short tx mem) (short other memToo)
  refine ⟨spelled, fun apart tx mem other memToo => ⟨fun same => ?_, fun alike => ?_⟩⟩
  · exact spelled tx mem other memToo (apart tx mem other memToo same)
  · rw [alike_iff.mp alike]

end Transaction

namespace Sample

def shifted : Transaction := { payBob with method := "Transfe", params := 0x72 :: payBob.params }

end Sample

theorem Transaction.sample_id_eq_iff_alike :
    let known : Set Transaction := {tx | tx ∈ [Sample.payBob, Sample.shifted]}
    (∀ tx ∈ known, tx.Short) ∧
    (∀ tx ∈ known, ∀ other ∈ known, keccak256 tx.preimage = keccak256 other.preimage →
      tx.preimage = other.preimage) ∧
    Bytes.ofText Sample.payBob.method ++ Sample.payBob.params =
      Bytes.ofText Sample.shifted.method ++ Sample.shifted.params ∧
    Sample.payBob.id ≠ Sample.shifted.id := by
  intro known
  have short : ∀ tx ∈ [Sample.payBob, Sample.shifted], tx.Short := by decide +kernel
  have apart : ∀ tx ∈ [Sample.payBob, Sample.shifted], ∀ other ∈ [Sample.payBob, Sample.shifted],
      keccak256 tx.preimage = keccak256 other.preimage → tx.preimage = other.preimage := by
    decide +kernel
  refine ⟨short, apart, by decide +kernel, fun same => ?_⟩
  have paid : Sample.payBob ∈ known := List.mem_cons_self
  have moved : Sample.shifted ∈ known := List.mem_cons_of_mem _ List.mem_cons_self
  have alike := ((@id_eq_iff_alike known short).2 apart _ paid _ moved).mp same
  exact absurd alike.method (by decide)

end GroupedLedger
