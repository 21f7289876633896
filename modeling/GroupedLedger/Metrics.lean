namespace GroupedLedger

structure Duration where
  seconds : UInt64
  nanoseconds : UInt32
  deriving DecidableEq

namespace Duration

def toSeconds (span : Duration) : Float :=
  span.seconds.toFloat + span.nanoseconds.toFloat / 1000000000.0

def ofNanoseconds (count : Nat) : Duration :=
  ⟨UInt64.ofNat (count / 1000000000), UInt32.ofNat (count % 1000000000)⟩

/-- The span in whole microseconds; one too long for 64 bits counts as the longest. -/
def micros (span : Duration) : Nat :=
  min (span.seconds.toNat * 1000000 + span.nanoseconds.toNat / 1000) (UInt64.size - 1)

/-- How many of `count` fall on a second of the span; none if the span is empty. -/
def rate (span : Duration) (count : Nat) : Float :=
  let seconds := span.toSeconds
  if seconds > 0.0 then count.toUInt64.toFloat / seconds else 0.0

end Duration
end GroupedLedger
