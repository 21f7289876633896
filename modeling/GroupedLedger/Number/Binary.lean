namespace GroupedLedger.Number

/-- The whole number nearest to a fraction; a half goes to the even neighbour. -/
def roundEven (numerator denominator : Nat) : Nat :=
  let quotient := numerator / denominator
  let twice := 2 * (numerator % denominator)
  if twice > denominator ∨ (twice = denominator ∧ quotient % 2 = 1) then quotient + 1 else quotient

def signBit : Nat := 0x8000000000000000

def infinityBits : Nat := 0x7FF0000000000000

def signBits (negative : Bool) : Nat := if negative then signBit else 0

/-- The bits of the number nearest to a fraction. The significand is scaled to 53 bits, or to as
many as the smallest exponent leaves; one that rounds up to 54 bits carries into the exponent. -/
def nearestBits (numerator denominator : Nat) : Nat :=
  if numerator = 0 then 0
  else
    let scaled (exponent : Int) : Nat × Nat :=
      (numerator <<< (-exponent).toNat, denominator <<< exponent.toNat)
    let guess : Int := (numerator.log2 : Int) - denominator.log2 - 52
    let (high, low) := scaled guess
    let exponent := max (if high < low <<< 52 then guess - 1 else guess) (-1074)
    let (high, low) := scaled exponent
    min (((exponent + 1074).toNat <<< 52) + roundEven high low) infinityBits

/-- The number nearest to `significand * 10 ^ exponent`. Powers far beyond the range are not worked
out: above it the number is infinite, and `ceiling` bounds the power of two a small one is below. -/
def nearestDecimal (negative : Bool) (significand : Nat) (exponent : Int) : Float :=
  let ceiling : Int := (significand.log2 : Int) + 1 + 3 * exponent
  let bits :=
    if significand = 0 then 0
    else if exponent > 400 then infinityBits
    else if ceiling < -1200 then 0
    else nearestBits (significand * Nat.pow 10 exponent.toNat) (Nat.pow 10 (-exponent).toNat)
  Float.ofBits (UInt64.ofNat (bits + signBits negative))

inductive Binary where
  | notANumber
  | infinite (negative : Bool)
  | finite (negative : Bool) (numerator denominator : Nat)
  deriving DecidableEq

def Binary.ofFloat (x : Float) : Binary :=
  let bits := x.toBits.toNat
  let negative := decide (signBit ≤ bits)
  let exponent := (bits >>> 52) % 0x800
  let fraction := bits % 0x10000000000000
  if exponent = 0x7FF then if fraction = 0 then .infinite negative else .notANumber
  else
    let significand := if exponent = 0 then fraction else fraction + 0x10000000000000
    let power : Int := (max exponent 1 : Nat) - 1075
    .finite negative (significand <<< power.toNat) (1 <<< (-power).toNat)

end GroupedLedger.Number
