import GroupedLedger.Executor

namespace GroupedLedger

inductive ScriptStep where
  | edit (edit : Edit)
  /-- Reads a key and writes the value found, or the empty value, under another. -/
  | copy (source target : Key)
  | returns (value : Value)
  | fail (error : String)
  /-- Ends the batch with a fatal error. -/
  | fatal (reason : String)
  /-- Ends the batch as cancelled. -/
  | stop
  /-- Raises the signal and ends the batch as cancelled. -/
  | cancel
  /-- Raises the signal and goes on. -/
  | signal
  | crash
  /-- Gives the effect this many times. -/
  | copies (count : Nat)
  /-- Gives the effect of another transaction's name. -/
  | rename (id : Digest)

abbrev Script := List ScriptStep

namespace Script

structure Progress where
  effect : Effect
  copies : Nat
  returned : Value
  token : Token

inductive Ending where
  | finished (progress : Progress)
  | failed (progress : Progress) (error : String)
  | aborted (answer : Answer) (token : Token)

def follow (state : StateView) (progress : Progress) : Script → Ending
  | [] => .finished progress
  | .edit edit :: rest =>
    follow state { progress with effect := progress.effect.edit edit } rest
  | .copy source target :: rest =>
    let view := state.through progress.effect.own?
    let effect := (progress.effect.read source).write target ((view.get? source).getD [])
    let token := if view.trips source then progress.token.signal else progress.token
    follow state { progress with effect, token } rest
  | .returns value :: rest => follow state { progress with returned := value } rest
  | .fail error :: _ => .failed progress error
  | .fatal reason :: _ => .aborted (.done (.error (.fatal reason))) progress.token
  | .stop :: _ => .aborted (.done (.error .cancelled)) progress.token
  | .cancel :: _ => .aborted (.done (.error .cancelled)) progress.token.signal
  | .signal :: rest => follow state { progress with token := progress.token.signal } rest
  | .crash :: _ => .aborted .crashed progress.token
  | .copies count :: rest => follow state { progress with copies := count } rest
  | .rename id :: rest =>
    follow state { progress with effect := { progress.effect with id } } rest

/-- What a transaction leaves for the ones after it in its batch. -/
def leave (pending : Overlay) (effect : Effect) : Overlay := pending.extend effect.overlay

/-- Puts effects in front of the rest of a batch, which may have ended otherwise. -/
def goOn (effects : List Effect) : Answer × Token → Answer × Token
  | (.done (.ok rest), token) => (.done (.ok (effects ++ rest)), token)
  | other => other

/-- Follows the scripts of a batch; `pending` is what its earlier transactions left. -/
def batch (scripts : Digest → Script) (state : StateView) (pending : Overlay) (token : Token) :
    List Transaction → Answer × Token
  | [] => (.done (.ok []), token)
  | tx :: rest =>
    let start : Progress := ⟨Effect.fresh tx.id, 1, [], token⟩
    match follow (state.through pending.read) start (scripts tx.id) with
    | .aborted answer token => (answer, token)
    | .failed progress error =>
      let effect := progress.effect.clear.finish .failed (some error) []
      goOn (List.replicate progress.copies effect) (batch scripts state pending progress.token rest)
    | .finished progress =>
      let effect := progress.effect.finish .mined none progress.returned
      goOn (List.replicate progress.copies effect)
        (batch scripts state (leave pending effect) progress.token rest)

end Script

/-- The executor that follows the scripts. Among several for one transaction the last counts, and
a transaction without any does nothing. -/
def Executor.scripted (scripts : List (Digest × Script)) : Executor where
  execute _ transactions base overlay token :=
    let scriptOf (id : Digest) : Script :=
      ((scripts.reverse.find? fun entry => entry.1 == id).map Prod.snd).getD []
    Script.batch scriptOf (base.through overlay.read) .empty token transactions

end GroupedLedger
