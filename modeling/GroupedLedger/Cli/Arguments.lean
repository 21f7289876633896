import GroupedLedger.Number.Real
import GroupedLedger.Text.Printable

namespace GroupedLedger.Cli

inductive GrouperKind where
  | resource
  | sender
  | serial
  deriving DecidableEq, Repr

def GrouperKind.word : GrouperKind → String
  | .resource => "resource"
  | .sender => "sender"
  | .serial => "serial"

def GrouperKind.name : GrouperKind → String
  | .resource => "Resource"
  | .sender => "Sender"
  | .serial => "Serial"

def GrouperKind.all : List GrouperKind := [.resource, .sender, .serial]

structure Settings where
  accounts : Nat := 1000
  transactions : Nat := 1000
  blockSize : Nat := 250
  conflictFactor : Option Float := none
  unroutableRatio : Float := 0.0
  systemRatio : Float := 0.0
  threads : Option Nat := none
  grouper : GrouperKind := .resource
  seed : UInt64 := 42

inductive Opt where
  | accounts
  | transactions
  | blockSize
  | conflictFactor
  | unroutableRatio
  | systemRatio
  | threads
  | grouper
  | seed
  deriving DecidableEq, Repr

namespace Opt

def all : List Opt :=
  [.accounts, .transactions, .blockSize, .conflictFactor, .unroutableRatio, .systemRatio,
    .threads, .grouper, .seed]

def long : Opt → String
  | .accounts => "accounts"
  | .transactions => "transactions"
  | .blockSize => "block-size"
  | .conflictFactor => "conflict-factor"
  | .unroutableRatio => "unroutable-ratio"
  | .systemRatio => "system-ratio"
  | .threads => "threads"
  | .grouper => "grouper"
  | .seed => "seed"

def short? : Opt → Option Char
  | .accounts => some 'a'
  | .transactions => some 'n'
  | .blockSize => some 'b'
  | .threads => some 't'
  | .grouper => some 'g'
  | _ => none

def shown (opt : Opt) : String :=
  let value := opt.long.toList.map fun c => if c = '-' then '_' else c.toUpper
  "--" ++ opt.long ++ " <" ++ String.ofList value ++ ">"

def help : Opt → String
  | .accounts => "Number of accounts"
  | .transactions => "Total number of transactions per run"
  | .blockSize => "Maximum transactions per block"
  | .conflictFactor => "Conflict factor (0.0-1.0). When omitted, a range of factors is swept"
  | .unroutableRatio => "Share of calls to undeployed contracts"
  | .systemRatio => "Share of consensus calls"
  | .threads => "Worker threads for the parallel phase. Defaults to available parallelism"
  | .grouper => "Grouping strategy"
  | .seed => "Random seed for workload generation"

def default? : Opt → Option String
  | .accounts => some "1000"
  | .transactions => some "1000"
  | .blockSize => some "250"
  | .unroutableRatio => some "0.0"
  | .systemRatio => some "0.0"
  | .grouper => some "resource"
  | .seed => some "42"
  | _ => none

end Opt

inductive UsageError where
  | unexpectedArgument (shown : String)
  | unexpectedValue (value flag : String)
  | missingValue (opt : Opt)
  | repeated (opt : Opt)
  | invalidValue (value : String) (opt : Opt) (reason : Option String)
  deriving DecidableEq

/-- The wording of a usage error. What was typed is shown without what could steer a terminal. -/
def UsageError.message : UsageError → String
  | .unexpectedArgument shown => "unexpected argument '" ++ Text.printable shown ++ "' found"
  | .unexpectedValue value flag =>
    "unexpected value '" ++ Text.printable value ++ "' for '" ++ flag ++
      "' found; no more were expected"
  | .missingValue opt => "a value is required for '" ++ opt.shown ++ "' but none was supplied"
  | .repeated opt => "the argument '" ++ opt.shown ++ "' cannot be used multiple times"
  | .invalidValue value opt reason =>
    "invalid value '" ++ Text.printable value ++ "' for '" ++ opt.shown ++ "'" ++
      (reason.map (": " ++ ·)).getD ""

inductive Stop where
  | usage (error : UsageError)
  | help (long : Bool)
  | version
  deriving DecidableEq

def wholeValue (opt : Opt) (value : String) : Except Stop Nat :=
  match Number.whole UInt64.size value with
  | .ok number => .ok number
  | .error fault => .error (.usage (.invalidValue value opt (some fault.message)))

def realValue (opt : Opt) (value : String) : Except Stop Float :=
  match Number.real value with
  | .ok number => .ok number
  | .error fault => .error (.usage (.invalidValue value opt (some fault.message)))

def grouperValue (opt : Opt) (value : String) : Except Stop GrouperKind :=
  match GrouperKind.all.find? fun kind => kind.word == value with
  | some kind => .ok kind
  | none =>
    if value.isEmpty then .error (.usage (.missingValue opt))
    else .error (.usage (.invalidValue value opt none))

def Settings.set (settings : Settings) (opt : Opt) (value : String) : Except Stop Settings := do
  match opt with
  | .accounts => return { settings with accounts := ← wholeValue opt value }
  | .transactions => return { settings with transactions := ← wholeValue opt value }
  | .blockSize => return { settings with blockSize := ← wholeValue opt value }
  | .conflictFactor => return { settings with conflictFactor := some (← realValue opt value) }
  | .unroutableRatio => return { settings with unroutableRatio := ← realValue opt value }
  | .systemRatio => return { settings with systemRatio := ← realValue opt value }
  | .threads => return { settings with threads := some (← wholeValue opt value) }
  | .grouper => return { settings with grouper := ← grouperValue opt value }
  | .seed => return { settings with seed := UInt64.ofNat (← wholeValue opt value) }

/-- How far a command line has been read. `pending` is an option not yet looked at, with its value
if one was given: whether that fits is only asked once it is complete. -/
structure Scan where
  settings : Settings := {}
  seen : List Opt := []
  pending : Option (Opt × Option String) := none

namespace Scan

/-- Looks at an option: it needs a value, may be given once, and its value must fit. -/
def accept (scan : Scan) (opt : Opt) : Option String → Except Stop Scan
  | none => .error (.usage (.missingValue opt))
  | some value => do
    if scan.seen.contains opt then .error (.usage (.repeated opt))
    else
      let settings ← scan.settings.set opt value
      return { scan with settings, seen := opt :: scan.seen }

def resolve (scan : Scan) : Except Stop Scan :=
  match scan.pending with
  | none => .ok scan
  | some (opt, value) => { scan with pending := none }.accept opt value

/-- Meets an option, with the value from the same argument if there is one. -/
def meet (scan : Scan) (opt : Opt) (attached : Option String) : Except Stop Scan := do
  let scan ← scan.resolve
  match attached with
  | some value => scan.accept opt (some value)
  | none => return { scan with pending := some (opt, none) }

def finish (scan : Scan) (stop : Stop) : Except Stop Scan := do
  let _ ← scan.resolve
  .error stop

/-- Reads an argument of one dash and letters. An option's value is the rest of the argument,
less an equals sign in front of it. -/
def letters (scan : Scan) : List Char → Except Stop Scan
  | [] => .ok scan
  | c :: rest =>
    match Opt.all.find? fun opt => opt.short? == some c with
    | some opt =>
      scan.meet opt <|
        match rest with
        | [] => none
        | '=' :: value => some (String.ofList value)
        | value => some (String.ofList value)
    | none =>
      if c = 'h' then scan.finish (.help false)
      else if c = 'V' then scan.finish .version
      else .error (.usage (.unexpectedArgument (String.ofList ['-', c])))

def named (scan : Scan) (body : List Char) : Except Stop Scan :=
  let name := String.ofList (body.takeWhile (· != '='))
  let attached :=
    match body.dropWhile (· != '=') with
    | [] => none
    | _ :: value => some (String.ofList value)
  let flag (stop : Stop) : Except Stop Scan :=
    match attached with
    | some value => .error (.usage (.unexpectedValue value ("--" ++ name)))
    | none => scan.finish stop
  match Opt.all.find? fun opt => opt.long == name with
  | some opt => scan.meet opt attached
  | none =>
    if name = "help" then flag (.help true)
    else if name = "version" then flag .version
    else .error (.usage (.unexpectedArgument ("--" ++ name)))

/-- Reads an argument that is no option: the value that the pending option waits for. -/
def plain (scan : Scan) (arg : String) : Except Stop Scan :=
  match scan.pending with
  | some (opt, none) => .ok { scan with pending := some (opt, some arg) }
  | _ => .error (.usage (.unexpectedArgument arg))

def read (scan : Scan) (arg : String) : Except Stop Scan :=
  match arg.toList with
  | '-' :: '-' :: body => scan.named body
  | '-' :: c :: rest => scan.letters (c :: rest)
  | _ => scan.plain arg

/-- Reads all arguments. Nothing may follow a bare double dash. -/
def readAll (scan : Scan) : List String → Except Stop Scan
  | [] => scan.resolve
  | "--" :: [] => scan.resolve
  | "--" :: arg :: _ => .error (.usage (.unexpectedArgument arg))
  | arg :: rest => do (← scan.read arg).readAll rest

end Scan

def Settings.ofArguments (args : List String) : Except Stop Settings :=
  (Scan.readAll {} args).map Scan.settings

end GroupedLedger.Cli
