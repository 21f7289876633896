import GroupedLedger.Effect

namespace GroupedLedger

/-- A group by its place in the partition, with the effects of its transactions. -/
structure GroupOutcome where
  group : Nat
  effects : List Effect
  deriving DecidableEq

namespace GroupOutcome

def accessed (outcome : GroupOutcome) : KeySet :=
  .ofList (outcome.effects.flatMap Effect.accessedKeys)

def changed (outcome : GroupOutcome) : KeySet :=
  .ofList (outcome.effects.flatMap Effect.changedKeys)

/-- The keys its transactions touched and left as they were. -/
def onlyRead (outcome : GroupOutcome) : KeySet := outcome.accessed \ outcome.changed

end GroupOutcome

/-- The keys that some group read and no group changed. Reading them conflicts with nothing. -/
def readOnlyKeys (outcomes : List GroupOutcome) : KeySet :=
  Std.ExtTreeSet.ofList (outcomes.flatMap fun outcome => outcome.onlyRead.toList) \
    Std.ExtTreeSet.ofList (outcomes.flatMap fun outcome => outcome.changed.toList)

end GroupedLedger
