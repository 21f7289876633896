import GroupedLedger.Contract.Call
import GroupedLedger.Chain
import GroupedLedger.Overlay
import GroupedLedger.Random.ChaCha
import GroupedLedger.Random.Draw

namespace GroupedLedger

structure WorkloadConfig where
  /-- How many accounts there are; two at the least. -/
  accounts : Nat := 1000
  transactions : Nat := 100
  /-- How many transactions a block holds; one at the least. -/
  perBlock : Nat := 100
  /-- The share of transactions between hot accounts, which the factor also makes fewer: 0 means
  that no account is hot, 1 that two are and make all transactions. -/
  conflict : Float := 0.0
  /-- The share of calls to an address without a contract. -/
  unroutable : Float := 0.0
  system : Float := 0.0
  seed : UInt64 := 42

structure Block where
  header : Header
  transactions : List Transaction

/-- A chain of blocks to execute, with the accounts that have funds from the start. -/
structure Workload where
  accounts : List Address
  blocks : List Block

/-- A call on its way to becoming a transaction: all but the nonce. -/
structure Draft where
  sender : Address
  target : Address
  call : Call

namespace Workload

def initialBalance : UInt64 := 1000000

def minTransfer : UInt64 := 1

def transactionCount (workload : Workload) : Nat :=
  (workload.blocks.flatMap Block.transactions).length

def genesis (workload : Workload) : Snapshot :=
  let settings := (Snapshot.empty.insert Key.tokenConfig (Bytes.ofWord minTransfer)).insert
    Key.round (Bytes.ofWord 0)
  workload.accounts.foldl (fun state account =>
    state.insert (Key.balance account) (Bytes.ofWord initialBalance)) settings

/-- How many accounts are hot, if any are: from all of them at factor 0 down to two at factor 1. -/
def hotAccounts (conflict : Float) (accounts : Nat) : Nat :=
  let hot := 2.0 + (1.0 - conflict) * (accounts.toUInt64.toFloat - 2.0)
  (if hot > 2.0 then hot else 2.0).toUInt64.toNat

def drawPair (pool : Nat) : Draw (Nat × Nat) := do
  let sender ← Draw.below64 pool
  let other ← Draw.retry do
    let other ← Draw.below64 pool
    return if other = sender then none else some other
  return (sender, other)

/-- Draws a token call to an account: one in twenty asks for its balance, one in twenty sweeps to
it, and the others transfer up to a hundred. -/
def drawTokenCall (recipient : Address) : Draw Call := do
  match ← Draw.below32 20 with
  | 0 => return .getBalance recipient
  | 1 => return .sweep recipient
  | _ => return .transfer recipient (minTransfer + UInt64.ofNat (← Draw.below64 100))

/-- Draws a call: a consensus call, a transfer that strays to an address without a contract, or a
token call. -/
def drawDraft (config : WorkloadConfig) (accounts : Array Address) (stray : Address) :
    Draw Draft := do
  let hot := decide ((← Draw.unit) < config.conflict)
  let pool := if hot then hotAccounts config.conflict accounts.size else accounts.size
  let (sender, other) ← drawPair pool
  let sender := accounts.getD sender stray
  let other := accounts.getD other stray
  let roll ← Draw.unit
  if roll < config.system then return ⟨sender, consensusContract, .nextRound⟩
  else if roll < config.system + config.unroutable then return ⟨sender, stray, .transfer other 1⟩
  else return ⟨sender, tokenContract, ← drawTokenCall other⟩

def drawDrafts (config : WorkloadConfig) (accounts : Array Address) (stray : Address) :
    Nat → Draw (List Draft)
  | 0 => return []
  | count + 1 => do
    let draft ← drawDraft config accounts stray
    return draft :: (← drawDrafts config accounts stray count)

/-- Gives each call its sender's next nonce. `nonces` holds the next nonce of every sender seen. -/
def numbered (nonces : Std.ExtTreeMap Address UInt64) : List Draft → List Transaction
  | [] => []
  | draft :: rest =>
    let nonce := nonces.getD draft.sender 0
    { draft.call.toTransaction draft.sender nonce with target := draft.target } ::
      numbered (nonces.insert draft.sender (nonce + 1)) rest

/-- Cuts a list into parts of `size + 1` items; the last part may be shorter. -/
def chunks {α : Type} (size : Nat) (items : List α) : List (List α) :=
  match items with
  | [] => []
  | item :: rest => (item :: rest.take size) :: chunks size (rest.drop size)
termination_by items.length
decreasing_by simp only [List.length_drop, List.length_cons]; omega

/-- Puts parts of the stream under headers, one after the other. `parent` is what the next header
names: a header is built before the digest of its own height takes the place of its parent. -/
def linked (parent : Digest) (index : Nat) : List (List Transaction) → List Block
  | [] => []
  | part :: rest =>
    let height := UInt64.ofNat index + 1
    ⟨⟨height, parent⟩, part⟩ :: linked (keccak256 (Bytes.ofWord height)) (index + 1) rest

/-- The accounts of a configuration: one for each seed from its own seed on. -/
def accountsOf (config : WorkloadConfig) : List Address :=
  (List.range (max config.accounts 2)).map fun index =>
    Address.ofSeed (config.seed + UInt64.ofNat index)

/-- The workload of some calls: they are numbered, cut into parts of `perBlock`, and linked. -/
def ofDrafts (accounts : List Address) (perBlock : Nat) (drafts : List Draft) : Workload where
  accounts := accounts
  blocks := linked (Octets.filled 32 0) 0 (chunks (perBlock - 1) (numbered ∅ drafts))

/-- How many bytes there can be in one list. -/
def capacity : Nat := 0x7FFFFFFFFFFFFFFF

/-- Whether the accounts, at 20 bytes each, and the transactions, at 136, can be listed at all. -/
def fits (config : WorkloadConfig) : Bool :=
  decide (20 * max config.accounts 2 ≤ capacity ∧ 136 * config.transactions ≤ capacity)

/-- Generates a workload from a stream of words, unless there is no room for it or a draw never
comes out right. -/
def generateFrom (config : WorkloadConfig) (words : Nat → UInt32) : Option Workload :=
  if fits config then do
    let accounts := accountsOf config
    let stray := Address.ofSeed (config.seed - 1)
    let (drafts, _) ← drawDrafts config accounts.toArray stray config.transactions words 0
    return ofDrafts accounts config.perBlock drafts
  else none

def generate (config : WorkloadConfig) : Option Workload :=
  generateFrom config (ChaCha.words config.seed)

end Workload
end GroupedLedger
