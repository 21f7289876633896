import GroupedLedger.Octets

namespace GroupedLedger

abbrev Digest := Octets 32

namespace Keccak

structure Row where
  a : UInt64
  b : UInt64
  c : UInt64
  d : UInt64
  e : UInt64

structure State where
  r0 : Row
  r1 : Row
  r2 : Row
  r3 : Row
  r4 : Row

@[inline] def rotate (lane : UInt64) (count : UInt64) : UInt64 :=
  (lane <<< count) ||| (lane >>> (64 - count))

@[inline] def Row.xor (x y : Row) : Row :=
  ⟨x.a ^^^ y.a, x.b ^^^ y.b, x.c ^^^ y.c, x.d ^^^ y.d, x.e ^^^ y.e⟩

def Row.zero : Row := ⟨0, 0, 0, 0, 0⟩

def State.zero : State := ⟨.zero, .zero, .zero, .zero, .zero⟩

/-- Mixes each column's parity into the columns beside it. -/
@[inline] def State.theta (s : State) : State :=
  let p := ((((s.r0).xor s.r1).xor s.r2).xor s.r3).xor s.r4
  let d : Row := ⟨p.e ^^^ rotate p.b 1, p.a ^^^ rotate p.c 1, p.b ^^^ rotate p.d 1,
    p.c ^^^ rotate p.e 1, p.d ^^^ rotate p.a 1⟩
  ⟨s.r0.xor d, s.r1.xor d, s.r2.xor d, s.r3.xor d, s.r4.xor d⟩

/-- Rotates every lane by its own count and moves it to its new place. -/
@[inline] def State.rhoPi (s : State) : State where
  r0 := ⟨s.r0.a, rotate s.r1.b 44, rotate s.r2.c 43, rotate s.r3.d 21, rotate s.r4.e 14⟩
  r1 := ⟨rotate s.r0.d 28, rotate s.r1.e 20, rotate s.r2.a 3, rotate s.r3.b 45, rotate s.r4.c 61⟩
  r2 := ⟨rotate s.r0.b 1, rotate s.r1.c 6, rotate s.r2.d 25, rotate s.r3.e 8, rotate s.r4.a 18⟩
  r3 := ⟨rotate s.r0.e 27, rotate s.r1.a 36, rotate s.r2.b 10, rotate s.r3.c 15, rotate s.r4.d 56⟩
  r4 := ⟨rotate s.r0.c 62, rotate s.r1.d 55, rotate s.r2.e 39, rotate s.r3.a 41, rotate s.r4.b 2⟩

/-- The non-linear step within a row. -/
@[inline] def Row.chi (r : Row) : Row :=
  ⟨r.a ^^^ (~~~r.b &&& r.c), r.b ^^^ (~~~r.c &&& r.d), r.c ^^^ (~~~r.d &&& r.e),
    r.d ^^^ (~~~r.e &&& r.a), r.e ^^^ (~~~r.a &&& r.b)⟩

/-- One round, with the constant that is mixed into the first lane at its end. -/
def State.round (s : State) (constant : UInt64) : State :=
  let m := s.theta.rhoPi
  let r0 := m.r0.chi
  ⟨{ r0 with a := r0.a ^^^ constant }, m.r1.chi, m.r2.chi, m.r3.chi, m.r4.chi⟩

def roundConstants : List UInt64 :=
  [0x0000000000000001, 0x0000000000008082, 0x800000000000808a, 0x8000000080008000,
   0x000000000000808b, 0x0000000080000001, 0x8000000080008081, 0x8000000000008009,
   0x000000000000008a, 0x0000000000000088, 0x0000000080008009, 0x000000008000000a,
   0x000000008000808b, 0x800000000000008b, 0x8000000000008089, 0x8000000000008003,
   0x8000000000008002, 0x8000000000000080, 0x000000000000800a, 0x800000008000000a,
   0x8000000080008081, 0x8000000000008080, 0x0000000080000001, 0x8000000080008008]

def State.permute (s : State) : State := roundConstants.foldl State.round s

/-- The message with its padding, a whole number of blocks of 136 bytes. -/
def padded (message : Bytes) : Bytes :=
  match 136 - message.length % 136 with
  | 0 => message
  | 1 => message ++ [0x81]
  | fill + 2 => message ++ 0x01 :: (List.replicate fill 0 ++ [0x80])

/-- A lane from its bytes, the least significant first. -/
@[inline] def lane (a b c d e f g h : UInt8) : UInt64 :=
  a.toUInt64 ||| (b.toUInt64 <<< 8) ||| (c.toUInt64 <<< 16) ||| (d.toUInt64 <<< 24) |||
    (e.toUInt64 <<< 32) ||| (f.toUInt64 <<< 40) ||| (g.toUInt64 <<< 48) ||| (h.toUInt64 <<< 56)

def lanes : Bytes → List UInt64
  | a :: b :: c :: d :: e :: f :: g :: h :: rest => lane a b c d e f g h :: lanes rest
  | _ => []

/-- Mixes one block's 17 lanes into the state. -/
def State.mix (s : State) (r0 r1 r2 : Row) (l15 l16 : UInt64) : State :=
  ⟨s.r0.xor r0, s.r1.xor r1, s.r2.xor r2, s.r3.xor ⟨l15, l16, 0, 0, 0⟩, s.r4⟩

def State.absorb : State → List UInt64 → State
  | s, l0 :: l1 :: l2 :: l3 :: l4 :: l5 :: l6 :: l7 :: l8 :: l9 :: l10 :: l11 :: l12 :: l13 ::
      l14 :: l15 :: l16 :: rest =>
    ((s.mix ⟨l0, l1, l2, l3, l4⟩ ⟨l5, l6, l7, l8, l9⟩ ⟨l10, l11, l12, l13, l14⟩
      l15 l16).permute).absorb rest
  | s, _ => s

def laneBytes (lane : UInt64) : Bytes :=
  [lane.toUInt8, (lane >>> 8).toUInt8, (lane >>> 16).toUInt8, (lane >>> 24).toUInt8,
   (lane >>> 32).toUInt8, (lane >>> 40).toUInt8, (lane >>> 48).toUInt8, (lane >>> 56).toUInt8]

end Keccak

/-- The Keccak-256 digest: the first four lanes once the padded message is absorbed. -/
def keccak256 (message : Bytes) : Digest :=
  let s := Keccak.State.zero.absorb (Keccak.lanes (Keccak.padded message))
  ⟨Keccak.laneBytes s.r0.a ++ (Keccak.laneBytes s.r0.b ++
    (Keccak.laneBytes s.r0.c ++ Keccak.laneBytes s.r0.d)), rfl⟩

end GroupedLedger
