import GroupedLedger.Outcome

namespace GroupedLedger

structure Resolution where
  accepted : List GroupOutcome
  rejected : List GroupOutcome
  readOnly : KeySet

/-- The state of the pass over the groups. -/
structure Resolver where
  readOnly : KeySet
  claimed : KeySet
  accepted : List GroupOutcome
  rejected : List GroupOutcome

namespace Resolver

def start (readOnly : KeySet) : Resolver := ⟨readOnly, ∅, [], []⟩

/-- The keys of a group that may conflict. -/
def relevant (resolver : Resolver) (outcome : GroupOutcome) : KeySet :=
  outcome.accessed \ resolver.readOnly

/-- Whether a group shares no relevant key with a group accepted before it. -/
def admits (resolver : Resolver) (outcome : GroupOutcome) : Bool :=
  (resolver.relevant outcome ∩ resolver.claimed).isEmpty

def take (resolver : Resolver) (outcome : GroupOutcome) : Resolver :=
  if resolver.admits outcome then
    { resolver with
      claimed := resolver.claimed ∪ resolver.relevant outcome
      accepted := resolver.accepted ++ [outcome] }
  else
    { resolver with rejected := resolver.rejected ++ [outcome] }

/-- Ends the pass. Touching a read-only key is no evidence of a dependency, so the notes about
these keys are dropped from every effect. -/
def finish (resolver : Resolver) : Resolution :=
  let strip (outcome : GroupOutcome) : GroupOutcome :=
    { outcome with effects := outcome.effects.map (Effect.strip · resolver.readOnly) }
  ⟨resolver.accepted.map strip, resolver.rejected.map strip, resolver.readOnly⟩

end Resolver

namespace Resolution

def acceptedEffects (resolution : Resolution) : List Effect :=
  resolution.accepted.flatMap GroupOutcome.effects

def rejectedEffects (resolution : Resolution) : List Effect :=
  resolution.rejected.flatMap GroupOutcome.effects

end Resolution

/-- Splits a block's groups, given in the partition's order. They are taken once; a rejected group
claims no keys and gets no second try. -/
def resolve (outcomes : List GroupOutcome) : Resolution :=
  (outcomes.foldl Resolver.take (Resolver.start (readOnlyKeys outcomes))).finish

end GroupedLedger
