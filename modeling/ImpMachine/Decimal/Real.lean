import ImpMachine.Decimal.Integer
import ImpMachine.Decimal.Shortest

/-!
# Reading and writing doubles

Doubles are written with the fewest digits that read back. The plain form never uses an exponent
and adds nothing to a whole number; the detailed form marks a whole number with `.0` and switches to
an exponent for very large and very small values.
-/

namespace ImpMachine.Decimal

/-- A minus sign, also for the negative zero. -/
def signText (x : Float) : String :=
  if x.toBits >>> 63 == 1 then "-" else ""

/-- Shortest decimal of the magnitude of a finite double other than zero. -/
def shortestMagnitude (x : Float) : Scientific :=
  (Binary.ofBits (x.toBits &&& 0x7FFFFFFFFFFFFFFF)).shortest

/-- Finite and without a fractional part. -/
def isWhole (x : Float) : Bool :=
  x.isFinite && x.floor == x

/-- Plain form: `3`, `-0`, `0.0000001`, `inf`, `NaN`. -/
def realText (x : Float) : String :=
  if x.isNaN then "NaN"
  else if x.isInf then signText x ++ "inf"
  else if x == 0.0 then signText x ++ "0"
  else signText x ++ (shortestMagnitude x).positional

/-- Detailed form: `3.0`, `2.5`, `1e16`, `1.5e-7`. -/
def realDetail (x : Float) : String :=
  if x.isNaN || x.isInf then realText x
  else if x != 0.0 && (x.abs < 1.0e-4 || 1.0e16 ≤ x.abs) then
    signText x ++ (shortestMagnitude x).exponential
  else if isWhole x then realText x ++ ".0"
  else realText x

/-- Reads an optional minus sign, digits, a point and digits; `none` for anything else. -/
def readReal (cs : List Char) : Option Float :=
  let (negative, body) := match cs with
    | '-' :: rest => (true, rest)
    | _ => (false, cs)
  let whole := body.takeWhile Char.isDigit
  match body.dropWhile Char.isDigit with
  | '.' :: fraction =>
    if !whole.isEmpty && !fraction.isEmpty && fraction.all Char.isDigit then
      let mantissa := (whole ++ fraction).foldl (fun n c => n * 10 + digitValue c) 0
      let magnitude := Float.ofScientific mantissa true fraction.length
      some (if negative then -magnitude else magnitude)
    else none
  | _ => none

end ImpMachine.Decimal
