import GroupedLedger.Keccak

namespace GroupedLedger

/-- The part of a block's header that execution needs. -/
structure Header where
  height : UInt64
  parent : Digest
  deriving DecidableEq

structure ChainContext where
  hash : Digest
  height : UInt64
  deriving DecidableEq

/-- The context of a block is its parent. The first height has no block below it, so its parent
is given the same height 0. -/
def ChainContext.ofHeader (header : Header) : ChainContext where
  hash := header.parent
  height := if header.height = 0 then 0 else header.height - 1

end GroupedLedger
