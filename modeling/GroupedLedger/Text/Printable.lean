import GroupedLedger.Bytes

namespace GroupedLedger.Text

/-- Where the reading of a control sequence stands. -/
inductive Sequence where
  | outside
  | escape
  | marked
  /-- In a control sequence, which a letter ends. -/
  | control
  | device
  | deviceParams
  | deviceMarks
  /-- In a string that a terminator ends. -/
  | string
  /-- In a system command, which the bell ends. -/
  | command
  deriving DecidableEq, Repr

def between (low high c : Char) : Bool := decide (low ≤ c ∧ c ≤ high)

/-- Whether the byte that terminates strings is among the bytes of a character. -/
def hasTerminator (c : Char) : Bool := (Bytes.ofText (String.singleton c)).contains 0x9C

namespace Sequence

/-- What a character behind the escape character starts. -/
def start (c : Char) : Sequence :=
  if c = '[' then .control
  else if c = ']' then .command
  else if c = 'P' then .device
  else if c = 'X' ∨ c = '^' ∨ c = '_' then .string
  else if between ' ' '/' c then .marked
  else if between '0' '~' c then .outside
  else .escape

/-- Where the reading stands after a character that is left out. Escape starts a sequence anywhere,
and two control characters break off any. -/
def next (place : Sequence) (c : Char) : Sequence :=
  if c = '\x1b' then .escape
  else if c = '\x18' ∨ c = '\x1a' then .outside
  else
    match place with
    | .outside => .outside
    | .escape => start c
    | .marked => if between '0' '~' c then .outside else .marked
    | .control => if between '@' '~' c then .outside else .control
    | .device =>
      if between '@' '~' c then .string
      else if between '0' '?' c then .deviceParams
      else if between ' ' '/' c then .deviceMarks
      else .device
    | .deviceParams =>
      if between '<' '~' c then .string
      else if between ' ' '/' c then .deviceMarks
      else .deviceParams
    | .deviceMarks => if between '0' '~' c then .string else .deviceMarks
    | .string => if hasTerminator c then .outside else .string
    | .command => if c = '\x07' then .outside else .command

/-- Whether a blank is shown within the sequence. Strings and commands take it in. -/
def showsBlanks : Sequence → Bool
  | .escape => true
  | .marked => true
  | .control => true
  | _ => false

end Sequence

def isBlankControl (c : Char) : Bool := c = '\t' ∨ c = '\n' ∨ c = '\x0c' ∨ c = '\r'

def isShowable (c : Char) : Bool := isBlankControl c || (decide (' ' ≤ c) && c != '\x7f')

/-- The characters shown from here on. While `showing`, only a character that may not be shown is
looked at as part of the sequence; a character beyond ASCII ends the sequence for good. -/
def shown (place : Sequence) (showing : Bool) : List Char → List Char
  | [] => []
  | c :: rest =>
    if isShowable c &&
        (showing || place = .outside || (isBlankControl c && place.showsBlanks)) then
      c :: shown (if c ≤ '\x7f' then place else .outside) true rest
    else shown (place.next c) false rest

/-- The part of a text that can be shown safely: without control characters, and without the
sequences that steer a terminal, though blanks inside of these stay. -/
def printable (text : String) : String := String.ofList (shown .outside false text.toList)

end GroupedLedger.Text
