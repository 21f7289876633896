import GroupedLedger.Contract.Procedure
import GroupedLedger.Executor

namespace GroupedLedger

/-- What a token call does once the setting has been read. A transfer to oneself nets to nothing,
because the balance is read again after the amount was taken off. -/
def Call.effects (sender : Address) : Call → Procedure Value
  | .transfer recipient amount => do
    let source := Key.balance sender
    let target := Key.balance recipient
    let available ← Procedure.readWord source
    Procedure.require (amount ≤ available) (.insufficientBalance amount available)
    Procedure.writeWord source (available - amount)
    let received ← Procedure.add (← Procedure.readWord target) amount
    Procedure.writeWord target received
    return Bytes.ofWord (available - amount)
  | .sweep recipient => do
    let source := Key.balance sender
    let target := Key.balance recipient
    Procedure.require (recipient ≠ sender) .sweepToSelf
    let swept ← Procedure.readWord source
    let received ← Procedure.add (← Procedure.readWord target) swept
    Procedure.remove source
    Procedure.writeWord target received
    return Bytes.ofWord swept
  | .getBalance owner => do
    return Bytes.ofWord (← Procedure.readWord (Key.balance owner))
  | .nextRound => do
    let round ← Procedure.add (← Procedure.readWord Key.round) 1
    Procedure.writeWord Key.round round
    return Bytes.ofWord round

/-- Whether the least amount that may be transferred forbids a call. -/
def Call.checkMinimum (minimum : UInt64) : Call → Procedure Unit
  | .transfer _ amount => Procedure.require (minimum ≤ amount) (.belowMinimum amount minimum)
  | _ => .done ()

/-- What a call does. Every token call reads the setting first. -/
def Call.procedure (sender : Address) (call : Call) : Procedure Value :=
  if call.isSystem then call.effects sender
  else do
    call.checkMinimum (← Procedure.readWord Key.tokenConfig)
    call.effects sender

def Transaction.procedure (tx : Transaction) : Procedure Value :=
  match Call.decode tx with
  | .ok call => call.procedure tx.sender
  | .error error => .fail (.undecodable error)

namespace Vm

/-- How many transactions run between two looks at the signal. -/
def pollInterval : Nat := 16

/-- Executes one transaction. A failed call commits nothing, but what it touched stays noted. Also
tells whether a look-up raised the signal. -/
def transact (state : StateView) (tx : Transaction) : Effect × Bool :=
  match tx.procedure.run state ⟨Effect.fresh tx.id, false⟩ with
  | (.ok returned, frame) => (frame.effect.finish .mined none returned, frame.tripped)
  | (.error failure, frame) =>
    (frame.effect.clear.finish .failed (some failure.message) [], frame.tripped)

def poll (index : Nat) (token : Token) : Bool × Token :=
  if index % pollInterval = 0 then token.poll else (false, token)

/-- Executes the rest of a batch: `index` transactions are done, and `pending` is what they left. -/
def batch (state : StateView) (index : Nat) (pending : Overlay) (token : Token) :
    List Transaction → Run × Token
  | [] => (.ok [], token)
  | tx :: rest =>
    match poll index token with
    | (true, token) => (.error .cancelled, token)
    | (false, token) =>
      let (effect, tripped) := transact (state.through pending.read) tx
      let token := if tripped then token.signal else token
      let (run, token) := batch state (index + 1) (pending.absorb effect) token rest
      (run.map (effect :: ·), token)

def execute (transactions : List Transaction) (base : StateView) (overlay : Overlay)
    (token : Token) : Run × Token :=
  batch (base.through overlay.read) 0 .empty token transactions

end Vm

/-- The contracts as an executor. It never crashes. -/
def Executor.contracts : Executor where
  execute _ transactions base overlay token :=
    let (run, token) := Vm.execute transactions base overlay token
    (.done run, token)

end GroupedLedger
