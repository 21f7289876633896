import GroupedLedger.Block
import GroupedLedger.Contract.Vm
import GroupedLedger.Workload

namespace GroupedLedger

structure Tally where
  successful : Nat := 0
  failed : Nat := 0
  conflicted : Nat := 0
  blocks : Nat := 0
  groups : Nat := 0
  conflictingGroups : Nat := 0
  deriving DecidableEq, Repr

def Tally.total (tally : Tally) : Nat := tally.successful + tally.failed + tally.conflicted

/-- The number processed as a 64-bit count, which there is only if the number fits. -/
def Tally.total? (tally : Tally) : Option Nat :=
  if tally.total < UInt64.size then some tally.total else none

/-- A way to execute a workload: the state it ends in, and what it counted. -/
structure Runner where
  name : String := "unknown"
  run : Workload → Except BlockError (Snapshot × Tally)

namespace Runner

/-- Executes one block with a single batch. Whatever is not mined has failed. -/
def sequentialBlock (genesis : Snapshot) (state : Overlay × Tally) (block : Block) :
    Except BlockError (Overlay × Tally) :=
  let (overlay, tally) := state
  match (Vm.execute block.transactions genesis.view overlay Token.quiet).1 with
  | .error source => .error (.serialFailed source)
  | .ok effects =>
    let mined := effects.countP fun effect => effect.status == .mined
    .ok (Overlay.merge (some overlay) effects,
      { tally with
        successful := tally.successful + mined
        failed := tally.failed + (effects.length - mined)
        blocks := tally.blocks + 1 })

def sequential : Runner where
  name := "sequential"
  run workload := do
    let genesis := workload.genesis
    let (overlay, tally) ← workload.blocks.foldlM (sequentialBlock genesis) (.empty, {})
    return (genesis.apply overlay, tally)

/-- Executes one block by groups. The turns say which worker steps next in which block; when they
are over, the first worker that can step always does. -/
def groupedBlock (engine : Engine) (turns : Nat → List Nat) (genesis : Snapshot)
    (state : Option Overlay × Tally) (block : Block) :
    Except BlockError (Option Overlay × Tally) := do
  let (overlay, tally) := state
  let result ← engine.execute block.transactions block.header genesis.view overlay Token.quiet
    ((turns tally.blocks).map (Event.step · 0))
  return (some (result.overlay overlay),
    { successful := tally.successful + result.countStatus .mined
      failed := tally.failed + result.countStatus .failed
      conflicted := tally.conflicted + result.conflicting
      blocks := tally.blocks + 1
      groups := tally.groups + result.groups
      conflictingGroups := tally.conflictingGroups + result.conflictingGroups })

def grouped (threads : Nat) (grouper : Grouper) (turns : Nat → List Nat := fun _ => []) :
    Runner where
  name := "grouped"
  run workload := do
    let genesis := workload.genesis
    let engine : Engine := ⟨threads, grouper, .contracts⟩
    let (overlay, tally) ← workload.blocks.foldlM (groupedBlock engine turns genesis) (none, {})
    return (overlay.elim genesis genesis.apply, tally)

end Runner
end GroupedLedger
