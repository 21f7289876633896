import GroupedLedger.Bytes

namespace GroupedLedger.Hex

def digit (n : Nat) : Char :=
  if n < 10 then Char.ofNat (48 + n) else Char.ofNat (87 + n)

def byteDigits (byte : UInt8) : List Char :=
  [digit (byte.toNat / 16), digit (byte.toNat % 16)]

def digits (bytes : Bytes) : List Char := bytes.flatMap byteDigits

/-- A byte string with the usual mark in front. -/
def text (bytes : Bytes) : String := String.ofList ('0' :: 'x' :: digits bytes)

@[simp] theorem length_digits (bytes : Bytes) : (digits bytes).length = 2 * bytes.length := by
  induction bytes with
  | nil => rfl
  | cons byte bytes ih =>
    simp only [digits, List.flatMap_cons, List.length_append, List.length_cons] at ih ⊢
    simp only [byteDigits, List.length_cons, List.length_nil, ih]
    omega

end GroupedLedger.Hex
