import GroupedLedger.Executor
import GroupedLedger.WorkQueue

namespace GroupedLedger

/-- Where a worker stands. -/
inductive Worker where
  /-- About to look whether the queue is halted. -/
  | idle
  /-- Saw the queue running, about to take a group. -/
  | admitted
  /-- Has taken a group, about to look at the signal. -/
  | holding (group : Nat)
  /-- Saw the signal down; the executor is at work on the group. -/
  | running (group : Nat)
  /-- Has the group's answer, about to halt the queue if it is fatal. -/
  | answered (group : Nat) (run : Run)
  /-- About to store the group's answer. -/
  | storing (group : Nat) (run : Run)
  | stopped
  /-- Went down with the executor. -/
  | crashed

namespace Worker

def active : Worker → Bool
  | .stopped => false
  | .crashed => false
  | _ => true

def down : Worker → Bool
  | .crashed => true
  | _ => false

/-- An upper bound on the steps the worker takes before it asks the queue again. -/
def work : Worker → Nat
  | .idle => 2
  | .admitted => 1
  | .holding _ => 6
  | .running _ => 5
  | .answered .. => 4
  | .storing .. => 3
  | .stopped => 0
  | .crashed => 0

end Worker

/-- What happens next: the signal comes up from outside, or a worker steps. If that worker's
executor is at work and the signal is up by the end of it, the executor sees it only after `late`
looks that still find it down. -/
inductive Event where
  | signal
  | step (worker : Nat) (late : Nat)
  deriving DecidableEq, Repr

/-- The shared state of the workers. A slot holds the answer for its group once it is stored;
`calls` lists the groups the executor was called on, the last one first. -/
structure Pool where
  queue : WorkQueue
  workers : List Worker
  slots : List (Option Run)
  signalled : Bool
  calls : List Nat

namespace Pool

/-- Whether an answer stops the whole pool. -/
def isFatal : Run → Bool
  | .error (.fatal _) => true
  | _ => false

/-- The pool before its first step. There is at least one worker, and never more of them than
groups. -/
def start (threads : Nat) (sizes : List Nat) (signalled : Bool) : Pool where
  queue := .ofSizes sizes
  workers := List.replicate (min (max threads 1) sizes.length) .idle
  slots := List.replicate sizes.length none
  signalled := signalled
  calls := []

def move (pool : Pool) (worker : Nat) (phase : Worker) : Pool :=
  { pool with workers := pool.workers.set worker phase }

variable (job : Nat → Token → Answer × Token)

def stepFrom (pool : Pool) (worker late : Nat) : Worker → Pool
  | .idle => pool.move worker (if pool.queue.halted then .stopped else .admitted)
  | .admitted =>
    match pool.queue.take with
    | (none, _) => pool.move worker .stopped
    | (some group, queue) => { pool with queue := queue }.move worker (.holding group)
  | .holding group =>
    if pool.signalled then pool.move worker (.answered group (.error .cancelled))
    else { pool with calls := group :: pool.calls }.move worker (.running group)
  | .running group =>
    let (answer, token) := job group ⟨if pool.signalled then some late else none⟩
    { pool with signalled := pool.signalled || token.raised }.move worker <|
      match answer with
      | .done run => .answered group run
      | .crashed => .crashed
  | .answered group run =>
    { pool with queue := if isFatal run then pool.queue.halt else pool.queue }.move worker
      (.storing group run)
  | .storing group run =>
    { pool with slots := pool.slots.set group (some run) }.move worker .idle
  | .stopped => pool
  | .crashed => pool

/-- What an event does. A worker that is not there or has stopped does nothing. -/
def react (pool : Pool) : Event → Pool
  | .signal => { pool with signalled := true }
  | .step worker late =>
    match pool.workers[worker]? with
    | some place => pool.stepFrom job worker late place
    | none => pool

def work (pool : Pool) : Nat :=
  6 * pool.queue.ready.length + pool.workers.foldr (fun worker rest => worker.work + rest) 0

/-- Steps the first worker that can step, until none can or for `steps` times. -/
def settle : Nat → Pool → Pool
  | 0, pool => pool
  | steps + 1, pool =>
    match pool.workers.findIdx? Worker.active with
    | none => pool
    | some worker => settle steps (pool.react job (.step worker 0))

/-- Follows the events, which interleave the workers in any way, and then lets all workers come to
rest. -/
def run (pool : Pool) (events : List Event) : Pool :=
  let pool := events.foldl (react job) pool
  pool.settle job pool.work

def hasCrashed (pool : Pool) : Bool := pool.workers.any Worker.down

/-- The lowest group whose stored answer is fatal, with that answer. -/
def fatal? (pool : Pool) : Option (Nat × ExecutionError) :=
  pool.slots.zipIdx.findSome? fun (slot, group) =>
    match slot with
    | some (.error (.fatal reason)) => some (group, .fatal reason)
    | _ => none

end Pool
end GroupedLedger
