import GroupedLedger.Cli.Bench

open GroupedLedger

def systemHost : Cli.Host IO where
  print := IO.println
  timed work := do
    let before ← IO.monoNanosNow
    let result ← IO.lazyPure work
    let after ← IO.monoNanosNow
    return (result, .ofNanoseconds (after - before))

/-- Runs the program. All groups are executed on the thread it runs on. -/
def main (args : List String) : IO UInt32 := do
  let ending ← Cli.program systemHost 1 args
  if ending.code ≠ 0 then IO.eprintln ending.message
  if ending.code = 2 then
    IO.eprintln ("\n" ++ Cli.usageLine ++ "\n\nFor more information, try '--help'.")
  return ending.code.toUInt32
