import GroupedLedger.Key
import GroupedLedger.Bloom

namespace GroupedLedger

inductive Status where
  | pending
  | mined
  /-- Execution failed, or the transaction could never be executed. -/
  | failed
  /-- Executed, but its group overlapped a group accepted before it. -/
  | conflict
  deriving DecidableEq, Repr, Inhabited

def Status.text : Status → String
  | .pending => "pending"
  | .mined => "mined"
  | .failed => "failed"
  | .conflict => "conflict"

inductive Access where
  | read
  | write
  deriving DecidableEq, Repr

/-- What a transaction's sender is told. -/
structure Receipt where
  id : Digest
  status : Status
  error : Option String
  returned : Value
  bloom : Bloom
  deriving DecidableEq

structure Effect where
  id : Digest
  status : Status
  writes : KeyMap Value
  deletes : KeySet
  accesses : KeyMap Access
  bloom : Bloom
  receipt : Receipt
  deriving DecidableEq

namespace Effect

def invalidContract : String := "invalid contract address"

def parallelConflict : String := "parallel conflict"

def executionCancelled : String := "execution cancelled"

def fresh (id : Digest) : Effect where
  id := id
  status := .pending
  writes := ∅
  deletes := ∅
  accesses := ∅
  bloom := .empty
  receipt := ⟨id, .pending, none, [], .empty⟩

/-- Notes a read. A key already written to stays so. -/
def read (effect : Effect) (key : Key) : Effect :=
  { effect with accesses := effect.accesses.insertIfNew key .read }

/-- Notes a write, which takes the place of an earlier delete. -/
def write (effect : Effect) (key : Key) (value : Value) : Effect :=
  { effect with
    deletes := effect.deletes.erase key
    accesses := effect.accesses.insert key .write
    writes := effect.writes.insert key value }

/-- Notes a delete, which takes the place of an earlier write. -/
def delete (effect : Effect) (key : Key) : Effect :=
  { effect with
    writes := effect.writes.erase key
    accesses := effect.accesses.insert key .write
    deletes := effect.deletes.insert key }

/-- Forgets all writes and deletes. What was touched stays touched. -/
def clear (effect : Effect) : Effect := { effect with writes := ∅, deletes := ∅ }

def accessedKeys (effect : Effect) : List Key := effect.accesses.keys

/-- The keys written, in order, and then the keys deleted, in order. -/
def changedKeys (effect : Effect) : List Key := effect.writes.keys ++ effect.deletes.toList

def isConsistent (effect : Effect) : Bool :=
  effect.changedKeys.all fun key => effect.accesses.contains key

def accessBloom (effect : Effect) : Bloom :=
  Bloom.ofInputs (effect.accessedKeys.map Key.bytes)

/-- Fixes the status, the bloom and the receipt. -/
def finish (effect : Effect) (status : Status) (error : Option String) (returned : Value) : Effect :=
  { effect with
    status := status
    bloom := effect.accessBloom
    receipt := ⟨effect.id, status, error, returned, effect.accessBloom⟩ }

def failed (id : Digest) (error : String) : Effect := (fresh id).finish .failed (some error) []

/-- Marks the effect of a rejected group. Return value and bloom stay as they were. -/
def demote (effect : Effect) : Effect :=
  { effect with
    status := .conflict
    receipt := { effect.receipt with status := .conflict, error := some parallelConflict } }

def strip (effect : Effect) (keys : KeySet) : Effect :=
  { effect with accesses := effect.accesses.filter fun key _ => !keys.contains key }

end Effect

/-- One change to an effect. The first six keep it consistent; the rest reach past the notes. -/
inductive Edit where
  | read (key : Key)
  | write (key : Key) (value : Value)
  | delete (key : Key)
  | finish (status : Status) (error : Option String) (returned : Value)
  | demote
  | clear
  | untrackedWrite (key : Key) (value : Value)
  | untrackedDelete (key : Key)
  | untrackedAccess (key : Key) (access : Access)
  | forget (key : Key)

def Effect.edit (effect : Effect) : Edit → Effect
  | .read key => effect.read key
  | .write key value => effect.write key value
  | .delete key => effect.delete key
  | .finish status error returned => effect.finish status error returned
  | .demote => effect.demote
  | .clear => effect.clear
  | .untrackedWrite key value => { effect with writes := effect.writes.insert key value }
  | .untrackedDelete key => { effect with deletes := effect.deletes.insert key }
  | .untrackedAccess key access => { effect with accesses := effect.accesses.insert key access }
  | .forget key => { effect with accesses := effect.accesses.erase key }

end GroupedLedger
