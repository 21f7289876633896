import GroupedLedger.Overlay
import GroupedLedger.Transaction

namespace GroupedLedger

/-- What one execution sees of the cancellation signal: `fuse` many more looks find it down, and
every later one finds it up. With no fuse it stays down. -/
structure Token where
  fuse : Option Nat
  deriving DecidableEq, Repr

namespace Token

def quiet : Token := ⟨none⟩

def signalled : Token := ⟨some 0⟩

def signal (_ : Token) : Token := signalled

def poll : Token → Bool × Token
  | ⟨none⟩ => (false, ⟨none⟩)
  | ⟨some 0⟩ => (true, ⟨some 0⟩)
  | ⟨some (looks + 1)⟩ => (false, ⟨some looks⟩)

/-- Whether the signal is up or will come up during the execution that holds the token. -/
def raised (token : Token) : Bool := token.fuse.isSome

end Token

/-- Why a whole batch has no effects. A single transaction's failure is part of its effect. -/
inductive ExecutionError where
  | cancelled
  | fatal (reason : String)
  deriving DecidableEq, Repr

def ExecutionError.message : ExecutionError → String
  | .cancelled => "execution cancelled"
  | .fatal reason => "executor failure: " ++ reason

abbrev Run := Except ExecutionError (List Effect)

inductive Answer where
  | done (run : Run)
  | crashed

/-- Which of a block's batches an executor is called on: the serial transactions, or the group at a
place in the partition. -/
inductive Phase where
  | serial
  | group (place : Nat)

/-- Executes batches. It is promised to give one effect a transaction, in order; whoever uses the
answer checks that. Nothing of a block is executed twice, so the answers of an executor that keeps a
state of its own, and may answer equal batches differently, are answers by phase. -/
structure Executor where
  execute : Phase → List Transaction → StateView → Overlay → Token → Answer × Token

inductive EffectsFault where
  | wrongCount (effects transactions : Nat)
  | wrongTransaction (place : Nat)
  | untracked (id : Digest)
  deriving DecidableEq

def EffectsFault.message : EffectsFault → String
  | .wrongCount effects transactions =>
    toString effects ++ " records for " ++ toString transactions ++ " transactions"
  | .wrongTransaction place => "record " ++ toString place ++ " belongs to another transaction"
  | .untracked id => "record of " ++ Hex.text id.bytes ++ " changes keys it never accessed"

/-- The first fault of the effects given for a batch: their number, then their order, then keys
changed without being noted as touched. -/
def effectsFault? (transactions : List Transaction) (effects : List Effect) :
    Option EffectsFault :=
  if effects.length ≠ transactions.length then
    some (.wrongCount effects.length transactions.length)
  else
    match (transactions.zip effects).findIdx? fun (tx, effect) => tx.id != effect.id with
    | some place => some (.wrongTransaction place)
    | none => (effects.find? fun effect => !effect.isConsistent).map fun effect =>
        .untracked effect.id

end GroupedLedger
