import GroupedLedger.Cli.Help
import GroupedLedger.Grouping.Groupers
import GroupedLedger.Metrics
import GroupedLedger.Number.Fixed
import GroupedLedger.Runner

namespace GroupedLedger.Cli

/-- What the benchmark asks of the world around it. -/
structure Host (m : Type → Type) where
  print : String → m Unit
  timed : {α : Type} → (Unit → α) → m (α × Duration)

structure Ending where
  code : Nat
  message : String
  deriving DecidableEq

def Ending.success : Ending := ⟨0, ""⟩

def Ending.failure (reason : String) : Ending := ⟨1, "Error: " ++ reason⟩

/-- An end because there is no room for the workload asked for. Nothing is said about it. -/
def Ending.exhausted : Ending := ⟨101, ""⟩

def GrouperKind.grouper : GrouperKind → Grouper
  | .resource => .byResource
  | .sender => .bySender
  | .serial => .serial

def bannerLines (settings : Settings) (threads : Nat) : List String :=
  ["=== Grouped Block Execution Benchmark ===", "",
    "Configuration: " ++ toString settings.accounts ++ " accounts, " ++
      toString settings.transactions ++ " transactions, " ++ toString settings.blockSize ++
      " per block, " ++ toString threads ++ " threads, " ++ settings.grouper.name ++ " grouper",
    ""]

def rowLine (label runner : String) (tally : Tally) (span : Duration) (note : Option String) :
    String :=
  " | ".intercalate <|
    [Number.padRight 15 label, Number.padRight 10 runner,
      Number.padLeft 6 (toString tally.successful) ++ " ok",
      Number.padLeft 5 (toString tally.failed) ++ " failed",
      Number.padLeft 5 (toString tally.conflicted) ++ " conflict",
      Number.padLeft 8 (Number.fixed 2 (span.toSeconds * 1000.0)) ++ " ms",
      Number.padLeft 9 (Number.fixed 0 (span.rate tally.total)) ++ " tx/s"] ++ note.toList

def factorLabel (factor : Float) : String := Number.fixed 0 (factor * 100.0) ++ "% conflicts"

/-- The conflict factors to run: the one asked for, if it is a share, or else a range of them. -/
def factors? (settings : Settings) : Option (List Float) :=
  match settings.conflictFactor with
  | some factor => if 0.0 ≤ factor ∧ factor ≤ 1.0 then some [factor] else none
  | none => some [0.0, 0.25, 0.5, 0.75, 1.0]

def workloadConfig (settings : Settings) (factor : Float) : WorkloadConfig where
  accounts := settings.accounts
  transactions := settings.transactions
  perBlock := settings.blockSize
  conflict := factor
  unroutable := settings.unroutableRatio
  system := settings.systemRatio
  seed := settings.seed

section Monadic

variable {m : Type → Type} [Monad m] (host : Host m)

/-- Runs one conflict factor; gives the program's end if it fails. -/
def benchFactor (settings : Settings) (grouped : Runner) (factor : Float) :
    m (Option Ending) := do
  match Workload.generate (workloadConfig settings factor) with
  | none => return some .exhausted
  | some workload =>
    let baseline ← host.timed fun _ => Runner.sequential.run workload
    match baseline with
    | (.error _, _) => return some (.failure "sequential run failed")
    | (.ok (expected, baselineTally), baselineSpan) =>
      let measured ← host.timed fun _ => grouped.run workload
      match measured with
      | (.error _, _) => return some (.failure (grouped.name ++ " run failed"))
      | (.ok (state, tally), span) =>
        host.print
          (rowLine (factorLabel factor) Runner.sequential.name baselineTally baselineSpan none)
        let note := if state = expected then "state matches" else "state differs"
        host.print (rowLine "" grouped.name tally span (some note))
        return none

def benchFactors (settings : Settings) (grouped : Runner) : List Float → m Ending
  | [] => return .success
  | factor :: rest => do
    match ← benchFactor host settings grouped factor with
    | some ending => return ending
    | none => benchFactors settings grouped rest

/-- Runs the benchmark. The conflict factor is looked at once the first lines are shown. -/
def bench (settings : Settings) (threads : Nat) : m Ending := do
  (bannerLines settings threads).forM host.print
  match factors? settings with
  | none => return .failure "--conflict-factor must be in 0.0-1.0"
  | some factors => benchFactors host settings (.grouped threads settings.grouper.grouper) factors

/-- Runs the program on its arguments; `available` is the number of threads used when none is
asked for. -/
def program (available : Nat) (args : List String) : m Ending := do
  match Settings.ofArguments args with
  | .error (.usage error) => return ⟨2, "error: " ++ error.message⟩
  | .error (.help long) =>
    (helpLines long).forM host.print
    return .success
  | .error .version =>
    host.print versionLine
    return .success
  | .ok settings =>
    if settings.blockSize = 0 then return .failure "--block-size must be positive"
    else if settings.threads = some 0 then return .failure "--threads must be positive"
    else bench host settings (settings.threads.getD available)

end Monadic
end GroupedLedger.Cli
