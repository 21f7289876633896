import GroupedLedger.Address

namespace GroupedLedger

/-- A signed request to call a method of a contract. Signatures are checked before it gets here. -/
structure Transaction where
  sender : Address
  target : Address
  method : String
  params : Bytes
  nonce : UInt64
  deriving DecidableEq

namespace Transaction

/-- The content as one byte string. The method's length is kept in four bytes. -/
def preimage (tx : Transaction) : Bytes :=
  let method := Bytes.ofText tx.method
  tx.sender.bytes ++ (tx.target.bytes ++ (Bytes.bigEndian 4 method.length ++
    (method ++ (tx.params ++ Bytes.ofWord tx.nonce))))

def id (tx : Transaction) : Digest := keccak256 tx.preimage

end Transaction
end GroupedLedger
