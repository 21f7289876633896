import GroupedLedger.Number.Binary
import GroupedLedger.Number.Whole

namespace GroupedLedger.Number

inductive RealFault where
  | empty
  | invalid
  deriving DecidableEq

def RealFault.message : RealFault → String
  | .empty => "cannot parse float from empty string"
  | .invalid => "invalid float literal"

def digitsValue (digits : List Char) : Nat :=
  digits.foldl (fun value c => value * 10 + (c.toNat - 48)) 0

/-- The power of ten a text gives: none, or a mark, perhaps a sign, and at least one digit. -/
def exponent? : List Char → Option Int
  | [] => some 0
  | mark :: rest =>
    if mark = 'e' ∨ mark = 'E' then
      let (negative, digits) :=
        match rest with
        | '-' :: digits => (true, digits)
        | '+' :: digits => (false, digits)
        | digits => (false, digits)
      if digits.isEmpty ∨ ¬digits.all Char.isDigit then none
      else some (if negative then -(digitsValue digits : Int) else digitsValue digits)
    else none

/-- The number that digits and a point spell. -/
def decimal? (negative : Bool) (text : List Char) : Option Float := do
  let whole := text.takeWhile Char.isDigit
  let rest := text.dropWhile Char.isDigit
  let (part, rest) :=
    match rest with
    | '.' :: rest => (rest.takeWhile Char.isDigit, rest.dropWhile Char.isDigit)
    | rest => ([], rest)
  if whole.isEmpty ∧ part.isEmpty then none
  else
    let exponent ← exponent? rest
    return nearestDecimal negative (digitsValue (whole ++ part)) (exponent - part.length)

def named? (negative : Bool) (text : List Char) : Option Float :=
  let word := String.ofList (text.map Char.toLower)
  if word = "inf" ∨ word = "infinity" then
    some (Float.ofBits (UInt64.ofNat (infinityBits + signBits negative)))
  else if word = "nan" then some (0.0 / 0.0)
  else none

def real (text : String) : Except RealFault Float :=
  let (negative, body) :=
    match text.toList with
    | '-' :: body => (true, body)
    | '+' :: body => (false, body)
    | body => (false, body)
  if text.isEmpty then .error .empty
  else
    match (named? negative body).or (decimal? negative body) with
    | some value => .ok value
    | none => .error .invalid

end GroupedLedger.Number
