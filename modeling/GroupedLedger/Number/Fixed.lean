import GroupedLedger.Number.Binary

namespace GroupedLedger.Number

def padLeft (width : Nat) (text : String) : String :=
  "".pushn ' ' (width - text.length) ++ text

def padRight (width : Nat) (text : String) : String := text.pushn ' ' (width - text.length)

/-- The digits of a number of units of the last place, with the point in front of the places. -/
def pointed (places units : Nat) : String :=
  let whole := toString (units / Nat.pow 10 places)
  if places = 0 then whole
  else
    let part := toString (units % Nat.pow 10 places)
    whole ++ "." ++ "".pushn '0' (places - part.length) ++ part

def fixed (places : Nat) (x : Float) : String :=
  match Binary.ofFloat x with
  | .notANumber => "NaN"
  | .infinite negative => if negative then "-inf" else "inf"
  | .finite negative numerator denominator =>
    (if negative then "-" else "") ++
      pointed places (roundEven (numerator * Nat.pow 10 places) denominator)

end GroupedLedger.Number
