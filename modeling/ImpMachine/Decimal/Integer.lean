/-!
# Reading and writing whole numbers

Integers of the language are 64-bit words. Reading stops at the first character that is not an
ASCII digit or at the digit that leaves the range, whichever comes first, and says which it was.
-/

namespace ImpMachine.Decimal

/-- Why a text is not a whole number of the wanted range. -/
inductive IntegerFault where
  | empty
  | invalidDigit
  | tooLarge
  | tooSmall
  deriving DecidableEq

/-- The wording of each fault. -/
def IntegerFault.message : IntegerFault → String
  | .empty => "cannot parse integer from empty string"
  | .invalidDigit => "invalid digit found in string"
  | .tooLarge => "number too large to fit in target type"
  | .tooSmall => "number too small to fit in target type"

/-- The value of an ASCII digit. -/
def digitValue (c : Char) : Nat :=
  c.toNat - '0'.toNat

/-- Reads digits after a number with the value `value`, as long as the result stays within
`limit`. -/
def readMagnitude (limit : Nat) (beyond : IntegerFault) (value : Nat) :
    List Char → Except IntegerFault Nat
  | [] => .ok value
  | c :: rest =>
    if c.isDigit then
      let next := value * 10 + digitValue c
      if next ≤ limit then readMagnitude limit beyond next rest else .error beyond
    else .error .invalidDigit

/-- At least one digit, within `limit`. -/
def readDigits (limit : Nat) (beyond : IntegerFault) (cs : List Char) :
    Except IntegerFault Nat :=
  if cs.isEmpty then .error .invalidDigit else readMagnitude limit beyond 0 cs

/-- The number of non-negative words, `2 ^ 63`. -/
def wordBound : Nat := 0x8000000000000000

/-- The largest 64-bit count. -/
def maxCount : Nat := 0xFFFFFFFFFFFFFFFF

/-- A signed 64-bit word: an optional sign and digits. -/
def readWord (cs : List Char) : Except IntegerFault Int64 :=
  match cs with
  | [] => .error .empty
  | '-' :: digits => (readDigits wordBound .tooSmall digits).map fun n => Int64.ofInt (-n)
  | '+' :: digits => (readDigits (wordBound - 1) .tooLarge digits).map fun n => Int64.ofInt n
  | _ => (readDigits (wordBound - 1) .tooLarge cs).map fun n => Int64.ofInt n

/-- An unsigned 64-bit count: an optional plus sign and digits. -/
def readCount (cs : List Char) : Except IntegerFault Nat :=
  match cs with
  | [] => .error .empty
  | '+' :: digits => readDigits maxCount .tooLarge digits
  | _ => readDigits maxCount .tooLarge cs

/-- A word in decimal. -/
def wordText (n : Int64) : String :=
  toString n.toInt

end ImpMachine.Decimal
