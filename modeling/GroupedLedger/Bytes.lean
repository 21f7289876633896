namespace GroupedLedger

/-- A byte string. Its own list is the model, so equality and order are those of lists. -/
abbrev Bytes := List UInt8

namespace Bytes

def ofText (text : String) : Bytes := text.toUTF8.data.toList

/-- The lowest `width` bytes of a number, the most significant first. -/
def bigEndian : Nat → Nat → Bytes
  | 0, _ => []
  | width + 1, n => bigEndian width (n / 256) ++ [UInt8.ofNat n]

/-- The number whose bytes these are, the most significant first. -/
def ofBigEndian (bytes : Bytes) : Nat :=
  bytes.foldl (fun n byte => 256 * n + byte.toNat) 0

@[simp] theorem length_bigEndian (width n : Nat) : (bigEndian width n).length = width := by
  induction width generalizing n with
  | zero => rfl
  | succ width ih => simp [bigEndian, ih]

theorem ofBigEndian_append (bytes : Bytes) (byte : UInt8) :
    ofBigEndian (bytes ++ [byte]) = 256 * ofBigEndian bytes + byte.toNat := by
  simp [ofBigEndian]

/-- Reading back gives the number cut to the width it was written in. -/
theorem ofBigEndian_bigEndian (width n : Nat) :
    ofBigEndian (bigEndian width n) = n % Nat.pow 256 width := by
  induction width generalizing n with
  | zero => simp [bigEndian, ofBigEndian, Nat.mod_one]
  | succ width ih =>
    rw [bigEndian, ofBigEndian_append, ih]
    simp only [Nat.pow_eq, Nat.pow_succ', Nat.mod_mul]
    simp [Nat.add_comm]

def ofWord (word : UInt64) : Bytes := bigEndian 8 word.toNat

/-- The 64-bit word that eight bytes hold; no other length holds one. -/
def toWord? (bytes : Bytes) : Option UInt64 :=
  if bytes.length = 8 then some (UInt64.ofNat (ofBigEndian bytes)) else none

@[simp] theorem length_ofWord (word : UInt64) : (ofWord word).length = 8 :=
  length_bigEndian 8 _

@[simp] theorem toWord?_ofWord (word : UInt64) : toWord? (ofWord word) = some word := by
  have fits : word.toNat % Nat.pow 256 8 = word.toNat := Nat.mod_eq_of_lt word.toNat_lt
  rw [ofWord, toWord?, ofBigEndian_bigEndian, fits]
  simp

theorem ofWord_inj {a b : UInt64} : ofWord a = ofWord b ↔ a = b := by
  refine ⟨fun same => ?_, congrArg ofWord⟩
  have read := congrArg toWord? same
  simpa using read

end Bytes
end GroupedLedger
