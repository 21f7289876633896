import GroupedLedger.Bytes
import Std.Data.ExtTreeMap

namespace GroupedLedger

/-- A byte string of exactly `n` bytes. -/
structure Octets (n : Nat) where
  bytes : Bytes
  length_bytes : bytes.length = n
  deriving DecidableEq

namespace Octets

@[ext] theorem ext {n : Nat} {a b : Octets n} (same : a.bytes = b.bytes) : a = b := by
  cases a; cases b; cases same; rfl

attribute [simp] length_bytes

instance {n : Nat} : Ord (Octets n) := ⟨fun a b => compare a.bytes b.bytes⟩

instance {n : Nat} : Std.TransOrd (Octets n) where
  eq_swap {a b} := (Std.OrientedCmp.eq_swap : compare a.bytes b.bytes = _)
  isLE_trans {a b c} below above :=
    (Std.TransCmp.isLE_trans (below : (compare a.bytes b.bytes).isLE) above :
      (compare a.bytes c.bytes).isLE)

instance {n : Nat} : Std.LawfulEqOrd (Octets n) where
  compare_self {a} := (Std.ReflCmp.compare_self : compare a.bytes a.bytes = .eq)
  eq_of_compare same := ext (Std.LawfulEqCmp.eq_of_compare same)

def filled (n : Nat) (byte : UInt8) : Octets n := ⟨List.replicate n byte, List.length_replicate⟩

def ofBytes? (n : Nat) (bytes : Bytes) : Option (Octets n) :=
  if fits : bytes.length = n then some ⟨bytes, fits⟩ else none

def ofNat (n value : Nat) : Octets n := ⟨Bytes.bigEndian n value, Bytes.length_bigEndian n value⟩

def suffix {n : Nat} (octets : Octets n) (m : Nat) (fits : m ≤ n := by decide) : Octets m :=
  ⟨octets.bytes.drop (n - m), by rw [List.length_drop, octets.length_bytes]; omega⟩

@[simp] theorem ofBytes?_bytes {n : Nat} (octets : Octets n) :
    ofBytes? n octets.bytes = some octets := by
  simp [ofBytes?]

theorem ofBytes?_eq_some_iff {n : Nat} {bytes : Bytes} {octets : Octets n} :
    ofBytes? n bytes = some octets ↔ bytes = octets.bytes := by
  constructor
  · intro read
    unfold ofBytes? at read
    split at read
    · exact congrArg Octets.bytes (Option.some.inj read)
    · cases read
  · rintro rfl
    exact ofBytes?_bytes octets

end Octets
end GroupedLedger
