namespace GroupedLedger

/-- The groups not yet handed out, next one first. -/
structure WorkQueue where
  ready : List Nat
  halted : Bool
  deriving DecidableEq, Repr

namespace WorkQueue

/-- The places of the sizes, from the largest size to the smallest. Equal sizes keep their order. -/
def order (sizes : List Nat) : List Nat :=
  (sizes.zipIdx.mergeSort fun a b => b.1 ≤ a.1).map Prod.snd

def ofSizes (sizes : List Nat) : WorkQueue := ⟨order sizes, false⟩

/-- Takes the first group off, whether halted or not. -/
def take (queue : WorkQueue) : Option Nat × WorkQueue :=
  match queue.ready with
  | [] => (none, queue)
  | group :: rest => (some group, { queue with ready := rest })

/-- Hands out the next group, unless halted or out of groups. -/
def next (queue : WorkQueue) : Option Nat × WorkQueue :=
  if queue.halted then (none, queue) else queue.take

def halt (queue : WorkQueue) : WorkQueue := { queue with halted := true }

def remaining (queue : WorkQueue) : Nat := queue.ready.length

def drain : Nat → WorkQueue → List Nat × WorkQueue
  | 0, queue => ([], queue)
  | count + 1, queue =>
    match queue.next with
    | (none, queue) => ([], queue)
    | (some group, queue) =>
      let (groups, queue) := drain count queue
      (group :: groups, queue)

end WorkQueue
end GroupedLedger
