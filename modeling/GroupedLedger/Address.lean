import GroupedLedger.Hex
import GroupedLedger.Keccak

namespace GroupedLedger

abbrev Address := Octets 20

namespace Address

def halves (bytes : Bytes) : List Nat :=
  bytes.flatMap fun byte => [byte.toNat / 16, byte.toNat % 16]

/-- The digits with the checksum in their case (EIP-55, without a chain number): a letter is a
capital exactly when the digest of the plain text has at least 8 at its place. -/
def checksumDigits (address : Address) : List Char :=
  let plain := Hex.digits address.bytes
  let check := halves (keccak256 (plain.map fun c => c.toNat.toUInt8)).bytes
  plain.zipWith (fun c n => if 8 ≤ n then c.toUpper else c) check

def text (address : Address) : String :=
  String.ofList ('0' :: 'x' :: address.checksumDigits)

/-- The address a digest stands for: its last twenty bytes. -/
def ofDigest (digest : Digest) : Address := digest.suffix 20

def ofSeed (seed : UInt64) : Address := ofDigest (keccak256 (Bytes.ofWord seed))

end Address
end GroupedLedger
