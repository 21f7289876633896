import GroupedLedger.Partition
import GroupedLedger.Pool
import GroupedLedger.Resolution

namespace GroupedLedger

inductive BlockError where
  | grouperContract (reason : String)
  | executorContract (phase reason : String)
  /-- The effects do not add up to the block. -/
  | accounting (accounted expected : Nat)
  /-- The signal was up before the groups started. -/
  | cancelled
  | groupFailed (group : Nat) (source : ExecutionError)
  | serialFailed (source : ExecutionError)
  | workerCrashed
  /-- The executor went down with the serial transactions, and the caller with it. -/
  | serialCrashed
  deriving DecidableEq

namespace BlockError

def message : BlockError → String
  | .grouperContract reason => "grouper contract violated: " ++ reason
  | .executorContract phase reason => "executor contract violated in " ++ phase ++ ": " ++ reason
  | .accounting accounted expected =>
    "accounted for " ++ toString accounted ++ " of " ++ toString expected ++ " transactions"
  | .cancelled => "block execution cancelled"
  | .groupFailed group source => "group " ++ toString group ++ " failed: " ++ source.message
  | .serialFailed source => "serial phase failed: " ++ source.message
  | .workerCrashed => "worker thread panicked"
  | .serialCrashed => "executor crashed in the serial phase"

def source? : BlockError → Option ExecutionError
  | .groupFailed _ source => some source
  | .serialFailed source => some source
  | _ => none

end BlockError

/-- An executed block: its effects as serial, accepted, unroutable, rejected, the length of each of
these four parts, and how its groups fared. -/
structure BlockResult where
  effects : List Effect
  serial : Nat
  accepted : Nat
  unroutable : Nat
  conflicting : Nat
  groups : Nat
  conflictingGroups : Nat
  cancelledGroups : Nat
  deriving DecidableEq

namespace BlockResult

def countStatus (result : BlockResult) (status : Status) : Nat :=
  result.effects.countP fun effect => effect.status == status

/-- What is pending after the block, on top of what was pending before. -/
def overlay (result : BlockResult) (prior : Option Overlay) : Overlay :=
  Overlay.merge prior result.effects

end BlockResult

/-- Lists the parts of a block in order. The rejected effects are demoted, and all parts together
must account for every transaction. -/
def assemble (serial accepted unroutable rejected : List Effect) (expected : Nat) :
    Except BlockError (List Effect) :=
  let accounted := serial.length + accepted.length + unroutable.length + rejected.length
  if accounted ≠ expected then .error (.accounting accounted expected)
  else .ok (serial ++ (accepted ++ (unroutable ++ rejected.map Effect.demote)))

/-- Gives the effects back if they match their batch. -/
def checkEffects (phase : String) (transactions : List Transaction) (effects : List Effect) :
    Except BlockError (List Effect) :=
  match effectsFault? transactions effects with
  | some fault => .error (.executorContract phase fault.message)
  | none => .ok effects

/-- The outcome of a group from what its slot holds, and whether the group was cancelled. Every
transaction of a cancelled group fails without having touched anything. -/
def slotOutcome (group : Nat) (transactions : List Transaction) :
    Option Run → Except BlockError (GroupOutcome × Bool)
  | some (.ok effects) => do
    let effects ← checkEffects ("group " ++ toString group) transactions effects
    return (⟨group, effects⟩, false)
  | some (.error .cancelled) =>
    .ok (⟨group, transactions.map fun tx => Effect.failed tx.id Effect.executionCancelled⟩, true)
  | some (.error (.fatal reason)) => .error (.groupFailed group (.fatal reason))
  | none => .error (.groupFailed group (.fatal "group was never executed"))

/-- The outcomes of all groups in the partition's order, each with whether it was cancelled. The
lowest fatal group decides the error, whatever befell the groups before it. -/
def Pool.outcomes (pool : Pool) (groups : List (List Transaction)) :
    Except BlockError (List (GroupOutcome × Bool)) :=
  if pool.hasCrashed then .error .workerCrashed
  else
    match pool.fatal? with
    | some (group, source) => .error (.groupFailed group source)
    | none => (groups.zip pool.slots).zipIdx.mapM fun ((transactions, slot), group) =>
        slotOutcome group transactions slot

structure Engine where
  threads : Nat
  grouper : Grouper
  executor : Executor

/-- What one execution of a block left behind: its outcome, the context the grouper was asked in if
it was asked at all, and the batches the executor was called on, in order. -/
structure BlockRun where
  outcome : Except BlockError BlockResult
  context : Option ChainContext := none
  calls : List (List Transaction) := []

namespace Engine

/-- Runs the serial transactions. Without any, the executor is not called. -/
def serialPhase (engine : Engine) (transactions : List Transaction) (base : StateView)
    (prior : Option Overlay) (token : Token) : Except BlockError (List Effect) × Token :=
  if transactions.isEmpty then (.ok [], token)
  else
    match engine.executor.execute .serial transactions base (prior.getD .empty) token with
    | (.crashed, token) => (.error .serialCrashed, token)
    | (.done (.error .cancelled), token) => (.error .cancelled, token)
    | (.done (.error (.fatal reason)), token) => (.error (.serialFailed (.fatal reason)), token)
    | (.done (.ok effects), token) => (checkEffects "serial phase" transactions effects, token)

/-- Runs the groups. Without any, there is no worker. -/
def groupPhase (engine : Engine) (groups : List (List Transaction)) (base : StateView)
    (overlay : Overlay) (signalled : Bool) (events : List Event) : Pool :=
  let job (group : Nat) (token : Token) : Answer × Token :=
    engine.executor.execute (.group group) (groups.getD group []) base overlay token
  (Pool.start engine.threads (groups.map List.length) signalled).run job events

def conclude (partition : Partition) (expected : Nat) (serial : List Effect)
    (outcomes : List (GroupOutcome × Bool)) : Except BlockError BlockResult := do
  let resolution := resolve (outcomes.map Prod.fst)
  let unroutable := partition.unroutable.map fun tx => Effect.failed tx.id Effect.invalidContract
  let effects ← assemble serial resolution.acceptedEffects unroutable resolution.rejectedEffects
    expected
  return {
    effects
    serial := serial.length
    accepted := resolution.acceptedEffects.length
    unroutable := unroutable.length
    conflicting := resolution.rejectedEffects.length
    groups := partition.groups.length
    conflictingGroups := resolution.rejected.length
    cancelledGroups := outcomes.countP Prod.snd }

/-- Executes a block on a base state and what is pending on it. The token says what the signal does
up to the end of the serial phase, the events say how the groups are interleaved and when the
signal comes up during them. A transaction that fails is part of the result; an error means that
there is no block. -/
def run (engine : Engine) (transactions : List Transaction) (header : Header) (base : StateView)
    (prior : Option Overlay) (token : Token) (events : List Event) : BlockRun :=
  match token.poll with
  | (true, _) => { outcome := .error .cancelled }
  | (false, token) =>
    let context := ChainContext.ofHeader header
    let partition := engine.grouper context transactions
    match partition.fault? (transactions.map Transaction.id) with
    | some fault => { outcome := .error (.grouperContract fault.message), context }
    | none =>
      let calls := if partition.serial.isEmpty then [] else [partition.serial]
      match engine.serialPhase partition.serial base prior token with
      | (.error error, _) => { outcome := .error error, context, calls }
      | (.ok serial, token) =>
        let pool := engine.groupPhase partition.groups base (Overlay.merge prior serial)
          token.raised events
        { outcome := do
            conclude partition transactions.length serial (← pool.outcomes partition.groups)
          context
          calls := calls ++ pool.calls.reverse.map (partition.groups.getD · []) }

/-- The outcome of executing a block. Without events, the first worker that can step always
does. -/
def execute (engine : Engine) (transactions : List Transaction) (header : Header)
    (base : StateView) (prior : Option Overlay) (token : Token) (events : List Event := []) :
    Except BlockError BlockResult :=
  (engine.run transactions header base prior token events).outcome

end Engine
end GroupedLedger
