import GroupedLedger.Bytes

namespace GroupedLedger.ChaCha

structure Row where
  a : UInt32
  b : UInt32
  c : UInt32
  d : UInt32

structure State where
  r0 : Row
  r1 : Row
  r2 : Row
  r3 : Row

@[inline] def rotate (word count : UInt32) : UInt32 := (word <<< count) ||| (word >>> (32 - count))

@[inline] def Row.add (x y : Row) : Row := ⟨x.a + y.a, x.b + y.b, x.c + y.c, x.d + y.d⟩

@[inline] def Row.mix (x y : Row) (count : UInt32) : Row :=
  ⟨rotate (x.a ^^^ y.a) count, rotate (x.b ^^^ y.b) count, rotate (x.c ^^^ y.c) count,
    rotate (x.d ^^^ y.d) count⟩

/-- The quarter round on all four columns. -/
def State.columns (s : State) : State :=
  let r0 := s.r0.add s.r1
  let r3 := s.r3.mix r0 16
  let r2 := s.r2.add r3
  let r1 := s.r1.mix r2 12
  let r0 := r0.add r1
  let r3 := r3.mix r0 8
  let r2 := r2.add r3
  let r1 := r1.mix r2 7
  ⟨r0, r1, r2, r3⟩

/-- Turns the rows so that diagonals become columns. -/
def State.turn (s : State) : State :=
  ⟨s.r0, ⟨s.r1.b, s.r1.c, s.r1.d, s.r1.a⟩, ⟨s.r2.c, s.r2.d, s.r2.a, s.r2.b⟩,
    ⟨s.r3.d, s.r3.a, s.r3.b, s.r3.c⟩⟩

def State.turnBack (s : State) : State :=
  ⟨s.r0, ⟨s.r1.d, s.r1.a, s.r1.b, s.r1.c⟩, ⟨s.r2.c, s.r2.d, s.r2.a, s.r2.b⟩,
    ⟨s.r3.b, s.r3.c, s.r3.d, s.r3.a⟩⟩

/-- Pairs of rounds: columns, then diagonals. -/
def State.rounds : Nat → State → State
  | 0, s => s
  | pairs + 1, s => (s.columns.turn.columns.turnBack).rounds pairs

structure Key where
  low : Row
  high : Row

def initial (key : Key) (counter : UInt64) : State where
  r0 := ⟨0x61707865, 0x3320646e, 0x79622d32, 0x6b206574⟩
  r1 := key.low
  r2 := key.high
  r3 := ⟨counter.toUInt32, (counter >>> 32).toUInt32, 0, 0⟩

def Row.toList (row : Row) : List UInt32 := [row.a, row.b, row.c, row.d]

def block (key : Key) (counter : UInt64) : List UInt32 :=
  let start := initial key counter
  let mixed := start.rounds 6
  (start.r0.add mixed.r0).toList ++ ((start.r1.add mixed.r1).toList ++
    ((start.r2.add mixed.r2).toList ++ (start.r3.add mixed.r3).toList))

/-- One step of the generator that grows the key. -/
def grow (seed : UInt64) : UInt64 := seed * 6364136223846793005 + 11634580027462260723

def output (seed : UInt64) : UInt32 :=
  let word := (((seed >>> 18) ^^^ seed) >>> 27).toUInt32
  let count := (seed >>> 59).toUInt32
  (word >>> count) ||| (word <<< (32 - count))

/-- The row grown from four states in turn, and the last of them. -/
def growRow (seed : UInt64) : Row × UInt64 :=
  let s1 := grow seed
  let s2 := grow s1
  let s3 := grow s2
  let s4 := grow s3
  (⟨output s1, output s2, output s3, output s4⟩, s4)

def Key.ofSeed (seed : UInt64) : Key :=
  let (low, seed) := growRow seed
  let (high, _) := growRow seed
  ⟨low, high⟩

/-- The word at an index of the stream of a seed: the key stream of twelve rounds under the key
grown from the seed, with a 64-bit block counter from zero and a zero nonce. -/
def words (seed : UInt64) (index : Nat) : UInt32 :=
  (block (Key.ofSeed seed) (UInt64.ofNat (index / 16))).getD (index % 16) 0

end GroupedLedger.ChaCha
