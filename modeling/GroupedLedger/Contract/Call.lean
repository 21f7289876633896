import GroupedLedger.Key
import GroupedLedger.Transaction

namespace GroupedLedger

def tokenContract : Address := Octets.filled 20 0x10

def consensusContract : Address := Octets.filled 20 0x20

namespace Key

/-- Holds the least amount that may be transferred. -/
def tokenConfig : Key := ofText "token/config"

def round : Key := ofText "consensus/round"

def balance (owner : Address) : Key := ofText ("token/balance/" ++ owner.text)

end Key

inductive Call where
  | transfer (recipient : Address) (amount : UInt64)
  /-- Moves all the sender has to `recipient` and removes the sender's balance. -/
  | sweep (recipient : Address)
  | getBalance (owner : Address)
  | nextRound
  deriving DecidableEq

inductive CallError where
  | unknownContract (address : Address)
  | unknownMethod (method : String)
  | malformedParams (method : String) (length : Nat)
  deriving DecidableEq

def CallError.message : CallError → String
  | .unknownContract address => "no contract deployed at " ++ address.text
  | .unknownMethod method => "unknown method " ++ method
  | .malformedParams method length =>
    "malformed params for " ++ method ++ ": " ++ toString length ++ " bytes"

namespace Call

def contract : Call → Address
  | .nextRound => consensusContract
  | _ => tokenContract

def method : Call → String
  | .transfer .. => "Transfer"
  | .sweep _ => "Sweep"
  | .getBalance _ => "GetBalance"
  | .nextRound => "NextRound"

def params : Call → Bytes
  | .transfer recipient amount => recipient.bytes ++ Bytes.ofWord amount
  | .sweep recipient => recipient.bytes
  | .getBalance owner => owner.bytes
  | .nextRound => []

def toTransaction (call : Call) (sender : Address) (nonce : UInt64) : Transaction where
  sender := sender
  target := call.contract
  method := call.method
  params := call.params
  nonce := nonce

def ofTokenMethod (method : String) (params : Bytes) : Except CallError Call :=
  if method = "Transfer" then
    match Octets.ofBytes? 20 (params.take 20), Bytes.toWord? (params.drop 20) with
    | some recipient, some amount => .ok (.transfer recipient amount)
    | _, _ => .error (.malformedParams "Transfer" params.length)
  else if method = "Sweep" then
    match Octets.ofBytes? 20 params with
    | some recipient => .ok (.sweep recipient)
    | none => .error (.malformedParams "Sweep" params.length)
  else if method = "GetBalance" then
    match Octets.ofBytes? 20 params with
    | some owner => .ok (.getBalance owner)
    | none => .error (.malformedParams "GetBalance" params.length)
  else .error (.unknownMethod method)

def decode (tx : Transaction) : Except CallError Call :=
  if tx.target = consensusContract then
    if tx.method = "NextRound" then .ok .nextRound else .error (.unknownMethod tx.method)
  else if tx.target = tokenContract then ofTokenMethod tx.method tx.params
  else .error (.unknownContract tx.target)

/-- Whether a call touches state of the whole chain, so that it has to run serially. -/
def isSystem : Call → Bool
  | .nextRound => true
  | _ => false

/-- The keys of its own that a call from `sender` may read or change. -/
def resources (sender : Address) : Call → List Key
  | .transfer recipient _ => [Key.balance sender, Key.balance recipient]
  | .sweep recipient => [Key.balance sender, Key.balance recipient]
  | .getBalance owner => [Key.balance owner]
  | .nextRound => [Key.round]

end Call
end GroupedLedger
