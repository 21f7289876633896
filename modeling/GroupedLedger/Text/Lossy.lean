import GroupedLedger.Bytes

namespace GroupedLedger.Text

def replacement : Char := Char.ofNat 0xFFFD

/-- What the reader holds: nothing, or a character that still owes `owed` continuation bytes, the
next of them between `low` and `high`. -/
inductive Reader where
  | between
  | within (owed : Nat) (low high : Nat) (code : Nat)
  deriving DecidableEq, Repr

def Reader.first (byte : Nat) : Option (Reader × List Char) :=
  if byte ≤ 0x7F then some (.between, [Char.ofNat byte])
  else if 0xC2 ≤ byte ∧ byte ≤ 0xDF then some (.within 1 0x80 0xBF (byte - 0xC0), [])
  else if byte = 0xE0 then some (.within 2 0xA0 0xBF 0, [])
  else if byte = 0xED then some (.within 2 0x80 0x9F 0xD, [])
  else if 0xE1 ≤ byte ∧ byte ≤ 0xEF then some (.within 2 0x80 0xBF (byte - 0xE0), [])
  else if byte = 0xF0 then some (.within 3 0x90 0xBF 0, [])
  else if 0xF1 ≤ byte ∧ byte ≤ 0xF3 then some (.within 3 0x80 0xBF (byte - 0xF0), [])
  else if byte = 0xF4 then some (.within 3 0x80 0x8F 4, [])
  else none

/-- Starts a character; a byte that starts none is broken by itself. -/
def Reader.start (byte : Nat) : Reader × List Char :=
  (first byte).getD (.between, [replacement])

def Reader.step : Reader → Nat → Reader × List Char
  | .between, byte => start byte
  | .within owed low high code, byte =>
    if low ≤ byte ∧ byte ≤ high then
      let code := code * 64 + (byte - 0x80)
      if owed ≤ 1 then (.between, [Char.ofNat code])
      else (.within (owed - 1) 0x80 0xBF code, [])
    else
      let (next, shown) := start byte
      (next, replacement :: shown)

/-- Everything shown from here to the end of the bytes. -/
def Reader.run : Reader → Bytes → List Char
  | .between, [] => []
  | .within .., [] => [replacement]
  | reader, byte :: rest =>
    let (next, shown) := reader.step byte.toNat
    shown ++ next.run rest

/-- The text that bytes are shown as. Each maximal part that can begin no character is replaced
once, as Unicode recommends. -/
def lossy (bytes : Bytes) : String := String.ofList (Reader.between.run bytes)

end GroupedLedger.Text
