namespace GroupedLedger.Number

inductive WholeFault where
  | empty
  | invalidDigit
  | tooLarge
  deriving DecidableEq

def WholeFault.message : WholeFault → String
  | .empty => "cannot parse integer from empty string"
  | .invalidDigit => "invalid digit found in string"
  | .tooLarge => "number too large to fit in target type"

def digit? (c : Char) : Option Nat := if c.isDigit then some (c.toNat - 48) else none

/-- Goes on with the digits of a number that must stay below `bound`. -/
def wholeFrom (bound : Nat) (value : Nat) : List Char → Except WholeFault Nat
  | [] => .ok value
  | c :: rest =>
    match digit? c with
    | none => .error .invalidDigit
    | some digit =>
      if value * 10 + digit < bound then wholeFrom bound (value * 10 + digit) rest
      else .error .tooLarge

/-- The number below `bound` that a text stands for. -/
def whole (bound : Nat) (text : String) : Except WholeFault Nat :=
  match text.toList with
  | [] => .error .empty
  | ['+'] => .error .invalidDigit
  | '+' :: digits => wholeFrom bound 0 digits
  | digits => wholeFrom bound 0 digits

end GroupedLedger.Number
