import GroupedLedger.Keccak

namespace GroupedLedger

/-- A set of bits, read as one number of 256 bytes with the most significant byte first. -/
structure Bloom where
  bits : BitVec 2048
  deriving DecidableEq

namespace Bloom

def empty : Bloom := ⟨0#2048⟩

instance : Inhabited Bloom := ⟨empty⟩

/-- The place of the bit that two neighbouring digest bytes choose. -/
def place (high low : UInt8) : Nat := (high.toNat * 256 + low.toNat) % 2048

/-- The three places of a digest, one from each of its first three pairs of bytes. -/
def places : Bytes → List Nat
  | a :: b :: c :: d :: e :: f :: _ => [place a b, place c d, place e f]
  | _ => []

def mask (input : Bytes) : BitVec 2048 :=
  (places (keccak256 input).bytes).foldl (fun bits n => bits ||| BitVec.twoPow 2048 n) 0#2048

def insert (bloom : Bloom) (input : Bytes) : Bloom := ⟨bloom.bits ||| mask input⟩

def contains (bloom : Bloom) (input : Bytes) : Bool := bloom.bits &&& mask input == mask input

def ofInputs (inputs : List Bytes) : Bloom := inputs.foldl insert empty

/-- The byte at an index, the most significant byte having index 0. -/
def byte (bloom : Bloom) (index : Nat) : UInt8 :=
  ((bloom.bits >>> (8 * (255 - index))).setWidth 8).toNat.toUInt8

def nonZeroBytes (bloom : Bloom) : List (Nat × UInt8) :=
  ((List.range 256).map fun index => (index, bloom.byte index)).filter fun entry => entry.2 != 0

end Bloom
end GroupedLedger
