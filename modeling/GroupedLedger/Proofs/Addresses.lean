import GroupedLedger.Proofs.Footprints
import Mathlib.Data.List.Basic

namespace GroupedLedger

namespace Hex

theorem digit_inj {m n : Nat} (hm : m < 16) (hn : n < 16) (same : digit m = digit n) : m = n := by
  have all : ∀ a b : Fin 16, digit a = digit b → a = b := by decide
  exact Fin.mk.inj (all ⟨m, hm⟩ ⟨n, hn⟩ same)

/-- The case of a digit carries nothing of its value. -/
theorem toLower_toUpper_digit {n : Nat} (hn : n < 16) : (digit n).toUpper.toLower = digit n := by
  have all : ∀ a : Fin 16, (digit a).toUpper.toLower = digit a := by decide
  exact all ⟨n, hn⟩

theorem toLower_digit {n : Nat} (hn : n < 16) : (digit n).toLower = digit n := by
  have all : ∀ a : Fin 16, (digit a).toLower = digit a := by decide
  exact all ⟨n, hn⟩

theorem exists_of_mem_digits {bytes : Bytes} {c : Char} (mem : c ∈ digits bytes) :
    ∃ n < 16, c = digit n := by
  obtain ⟨byte, _, hc⟩ := List.mem_flatMap.mp mem
  have small := byte.toNat_lt
  rcases List.mem_pair.mp hc with rfl | rfl
  · exact ⟨_, by omega, rfl⟩
  · exact ⟨_, by omega, rfl⟩

theorem byteDigits_inj {a b : UInt8} (same : byteDigits a = byteDigits b) : a = b := by
  have ha := a.toNat_lt
  have hb := b.toNat_lt
  simp only [byteDigits, List.cons.injEq, and_true] at same
  have high := digit_inj (by omega) (by omega) same.1
  have low := digit_inj (by omega) (by omega) same.2
  apply UInt8.toNat_inj.mp
  omega

theorem digits_injective : Function.Injective digits := by
  intro bytes
  induction bytes with
  | nil =>
    intro others same
    cases others with
    | nil => rfl
    | cons other others => cases same
  | cons byte bytes ih =>
    intro others same
    cases others with
    | nil => cases same
    | cons other others =>
      simp only [digits, List.flatMap_cons] at same
      obtain ⟨first, rest⟩ := List.append_inj same rfl
      rw [byteDigits_inj first, ih rest]

end Hex

namespace Address

theorem length_halves (bytes : Bytes) : (halves bytes).length = 2 * bytes.length := by
  induction bytes with
  | nil => rfl
  | cons byte bytes ih =>
    simp only [halves, List.flatMap_cons, List.length_append, List.length_cons, List.length_nil]
      at ih ⊢
    omega

/-- The digits with their case decided by any hash of the plain digits. -/
def digitsBy (hash : Bytes → Digest) (address : Address) : List Char :=
  let plain := Hex.digits address.bytes
  let check := halves (hash (plain.map fun c => c.toNat.toUInt8)).bytes
  plain.zipWith (fun c n => if 8 ≤ n then c.toUpper else c) check

def textBy (hash : Bytes → Digest) (address : Address) : String :=
  String.ofList ('0' :: 'x' :: address.digitsBy hash)

theorem map_toLower_digitsBy (hash : Bytes → Digest) (address : Address) :
    (address.digitsBy hash).map Char.toLower = Hex.digits address.bytes := by
  have enough : (Hex.digits address.bytes).length ≤
      (halves (hash ((Hex.digits address.bytes).map fun c => c.toNat.toUInt8)).bytes).length := by
    simp [length_halves]
  unfold digitsBy
  apply List.ext_getElem
  · simp only [List.length_map, List.length_zipWith]
    omega
  · intro place _ inside
    obtain ⟨n, hn, hd⟩ := Hex.exists_of_mem_digits (List.getElem_mem inside)
    rw [List.getElem_map, List.getElem_zipWith, hd]
    split
    · exact Hex.toLower_toUpper_digit hn
    · exact Hex.toLower_digit hn

theorem textBy_injective (hash : Bytes → Digest) : Function.Injective (textBy hash) := by
  intro a b same
  have digits := String.ofList_inj.mp same
  simp only [List.cons.injEq, true_and] at digits
  have plain := congrArg (List.map Char.toLower) digits
  rw [map_toLower_digitsBy, map_toLower_digitsBy] at plain
  exact Octets.ext (Hex.digits_injective plain)

end Address

theorem Bytes.ofText_injective : Function.Injective ofText := by
  intro a b same
  apply String.toByteArray_inj.mp
  exact ByteArray.ext (Array.toList_inj.mp same)

namespace Key

/-- The key of a balance, the owner written with any hash for the case of the letters. -/
def balanceBy (hash : Bytes → Digest) (owner : Address) : Key :=
  ofText ("token/balance/" ++ owner.textBy hash)

theorem balance_eq : balance = balanceBy keccak256 := rfl

theorem balanceBy_injective (hash : Bytes → Digest) : Function.Injective (balanceBy hash) := by
  intro a b same
  have bytes := Key.mk.inj same
  rw [Bytes.ofText_append, Bytes.ofText_append] at bytes
  exact Address.textBy_injective hash (Bytes.ofText_injective (List.append_cancel_left bytes))

/-- No two owners share a balance key. -/
theorem balance_injective : Function.Injective balance := balanceBy_injective keccak256

end Key

end GroupedLedger
