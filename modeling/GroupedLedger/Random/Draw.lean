namespace GroupedLedger

/-- A choice that takes words from a stream, starting at a place and ending at a later one. -/
abbrev Draw := ReaderT (Nat → UInt32) (StateT Nat Option)

namespace Draw

def word32 : Draw UInt32 := fun words place => some (words place, place + 1)

def word64 : Draw UInt64 := do
  let low ← word32
  let high ← word32
  return low.toUInt64 ||| (high.toUInt64 <<< 32)

/-- A number from zero up to but not including one, in steps of 2^-53. -/
def unit : Draw Float := do
  return (((← word64) >>> 11).toFloat) * (1.0 / 9007199254740992.0)

/-- Repeats a draw until it comes out right. -/
def retry {α : Type} (draw : Draw (Option α)) : Draw α := do
  match ← draw with
  | some result => return result
  -- As a term, the call would keep a note of where it stands in the file.
  | none => by apply retry; exact draw
partial_fixpoint

/-- The least significant part of a product up to which a word of `width` bits is taken for a
choice among `count`. Just as many words are taken for each of them. -/
def zone (width count : Nat) : Nat := (count <<< (width - (count.log2 + 1))) - 1

def choice? (width count word : Nat) : Option Nat :=
  let product := word * count
  if product % (1 <<< width) ≤ zone width count then some (product >>> width) else none

def below32 (count : Nat) : Draw Nat :=
  retry do return choice? 32 count (← word32).toNat

def below64 (count : Nat) : Draw Nat :=
  retry do return choice? 64 count (← word64).toNat

end Draw
end GroupedLedger
