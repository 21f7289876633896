import GroupedLedger.Chain
import GroupedLedger.Transaction

namespace GroupedLedger

structure Partition where
  serial : List Transaction
  groups : List (List Transaction)
  unroutable : List Transaction
  deriving DecidableEq

/-- Proposes a split of a block's transactions from their content alone. -/
abbrev Grouper := ChainContext → List Transaction → Partition

inductive PartitionFault where
  | emptyGroup (group : Nat)
  | wrongSize (held block : Nat)
  | foreign (id : Digest)
  deriving DecidableEq

def PartitionFault.message : PartitionFault → String
  | .emptyGroup group => "group " ++ toString group ++ " is empty"
  | .wrongSize held block =>
    "partition holds " ++ toString held ++ " transactions, block has " ++ toString block
  | .foreign id => "transaction " ++ Hex.text id.bytes ++ " is not in the block or appears twice"

namespace Partition

def toList (partition : Partition) : List Transaction :=
  partition.serial ++ (partition.groups.flatten ++ partition.unroutable)

def size (partition : Partition) : Nat := partition.toList.length

def counts (ids : List Digest) : Std.ExtTreeMap Digest Nat :=
  ids.foldl (fun counts id => counts.insert id (counts.getD id 0 + 1)) ∅

/-- Takes one off the count of each id, and gives the first id whose count is used up by then. -/
def foreign? (remaining : Std.ExtTreeMap Digest Nat) : List Digest → Option Digest
  | [] => none
  | id :: ids =>
    match remaining[id]? with
    | some (left + 1) => foreign? (remaining.insert id left) ids
    | _ => some id

/-- The first fault of a partition of the block with these ids: an empty group, then the number of
transactions, then a transaction that is not there or is there too often. -/
def fault? (partition : Partition) (block : List Digest) : Option PartitionFault :=
  match partition.groups.findIdx? List.isEmpty with
  | some group => some (.emptyGroup group)
  | none =>
    if partition.size ≠ block.length then some (.wrongSize partition.size block.length)
    else (foreign? (counts block) (partition.toList.map Transaction.id)).map .foreign

end Partition

/-- The grouper that runs the whole block one transaction after the other. -/
def Grouper.serial : Grouper := fun _ transactions => ⟨transactions, [], []⟩

end GroupedLedger
