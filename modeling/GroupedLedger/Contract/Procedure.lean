import GroupedLedger.Contract.Call
import GroupedLedger.Overlay

namespace GroupedLedger

/-- Why a single call fails. It fails no other transaction. -/
inductive CallFailure where
  | undecodable (error : CallError)
  | insufficientBalance (needed available : UInt64)
  | belowMinimum (amount minimum : UInt64)
  | sweepToSelf
  | overflow
  | corruptValue (key : Key)
  deriving DecidableEq

def CallFailure.message : CallFailure → String
  | .undecodable error => error.message
  | .insufficientBalance needed available =>
    "insufficient balance: need " ++ toString needed ++ ", have " ++ toString available
  | .belowMinimum amount minimum =>
    "amount " ++ toString amount ++ " below minimum transfer " ++ toString minimum
  | .sweepToSelf => "cannot sweep to self"
  | .overflow => "balance overflow"
  | .corruptValue key => "corrupt value under " ++ key.text

/-- A tree of accesses that ends in a value of type `α` or in a failure. -/
inductive Procedure (α : Type) where
  | done (result : α)
  | fail (failure : CallFailure)
  | read (key : Key) (next : Option Value → Procedure α)
  | write (key : Key) (value : Value) (next : Procedure α)
  | delete (key : Key) (next : Procedure α)

namespace Procedure

variable {α β : Type}

def bind : Procedure α → (α → Procedure β) → Procedure β
  | .done result, next => next result
  | .fail failure, _ => .fail failure
  | .read key rest, next => .read key fun value => (rest value).bind next
  | .write key value rest, next => .write key value (rest.bind next)
  | .delete key rest, next => .delete key (rest.bind next)

instance : Monad Procedure where
  pure := .done
  bind := bind

/-- Reads the number under a key: absent means zero, and anything but eight bytes is corrupt. -/
def readWord (key : Key) : Procedure UInt64 :=
  .read key fun
    | none => .done 0
    | some value =>
      match Bytes.toWord? value with
      | some word => .done word
      | none => .fail (.corruptValue key)

def writeWord (key : Key) (word : UInt64) : Procedure Unit :=
  .write key (Bytes.ofWord word) (.done ())

def remove (key : Key) : Procedure Unit := .delete key (.done ())

def require (condition : Bool) (failure : CallFailure) : Procedure Unit :=
  if condition then .done () else .fail failure

def add (a b : UInt64) : Procedure UInt64 :=
  if a.toNat + b.toNat < UInt64.size then .done (a + b) else .fail .overflow

/-- How far a transaction has got: its effect so far, and whether one of its look-ups raised the
cancellation signal. -/
structure Frame where
  effect : Effect
  tripped : Bool

/-- Looks up a key below the transaction's own effect, and notes the read. -/
def Frame.read (frame : Frame) (state : StateView) (key : Key) : Option Value × Frame :=
  let view := state.through frame.effect.own?
  (view.get? key, ⟨frame.effect.read key, frame.tripped || view.trips key⟩)

def run (state : StateView) : Procedure α → Frame → Except CallFailure α × Frame
  | .done result, frame => (.ok result, frame)
  | .fail failure, frame => (.error failure, frame)
  | .read key next, frame =>
    let (value, frame) := frame.read state key
    (next value).run state frame
  | .write key value next, frame =>
    next.run state { frame with effect := frame.effect.write key value }
  | .delete key next, frame => next.run state { frame with effect := frame.effect.delete key }

end Procedure
end GroupedLedger
