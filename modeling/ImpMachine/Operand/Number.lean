import ImpMachine.Arithmetic
import ImpMachine.Decimal.Real
import ImpMachine.Tree.Basic

/-!
# Numeric constants

A constant is a 64-bit word or a double. An operation on two words stays in the words; with a double
on either side it is carried out on doubles. Comparisons yield the words one and zero.
-/

namespace ImpMachine

/-- A numeric constant. -/
inductive Number where
  | int (n : Int64)
  | float (x : Float)

namespace Number

/-- The word of a truth value. -/
def ofBool (b : Bool) : Number :=
  .int (if b then 1 else 0)

/-- The constant as a double. -/
def toReal : Number → Float
  | .int n => n.toFloat
  | .float x => x

/-- The constant is zero, of either sign. -/
def isZero : Number → Bool
  | .int n => n == 0
  | .float x => x == 0.0

/-- An operation on two words. -/
def applyWords (op : BinaryOp) (a b : Int64) : Number :=
  match op with
  | .add => .int (a + b)
  | .sub => .int (a - b)
  | .mul => .int (a * b)
  | .div => .int (Arithmetic.floorDiv a b)
  | .mod => .int (Arithmetic.floorMod a b)
  | .eq => ofBool (a == b)
  | .notEq => ofBool (a != b)
  | .lt => ofBool (a < b)
  | .gt => ofBool (b < a)
  | .ltEq => ofBool (a ≤ b)
  | .gtEq => ofBool (b ≤ a)

/-- An operation on two doubles. -/
def applyReals (op : BinaryOp) (a b : Float) : Number :=
  match op with
  | .add => .float (a + b)
  | .sub => .float (a - b)
  | .mul => .float (a * b)
  | .div => .float (Arithmetic.floorDivReal a b)
  | .mod => .float (Arithmetic.floorModReal a b)
  | .eq => ofBool (a == b)
  | .notEq => ofBool (a != b)
  | .lt => ofBool (a < b)
  | .gt => ofBool (b < a)
  | .ltEq => ofBool (a ≤ b)
  | .gtEq => ofBool (b ≤ a)

/-- The value of `a op b`. -/
def apply (op : BinaryOp) (a b : Number) : Number :=
  match a, b with
  | .int a, .int b => applyWords op a b
  | a, b => applyReals op a.toReal b.toReal

/-- The negated constant. -/
def negate : Number → Number
  | .int n => .int (0 - n)
  | .float x => .float (-x)

/-- Equality as the language has it: a word never equals a double, and no NaN equals itself. -/
def same : Number → Number → Bool
  | .int a, .int b => a == b
  | .float a, .float b => a == b
  | _, _ => false

/-- Whole doubles below this magnitude are written with a fractional part. -/
def wholeLimit : Float := 1.0e15

/-- The constant as listings write it. A whole double keeps a fractional part, so that it reads
back as a double, up to `wholeLimit`. -/
def text : Number → String
  | .int n => Decimal.wordText n
  | .float x =>
    if Decimal.isWhole x && x.abs < wholeLimit then Decimal.realText x ++ ".0"
    else Decimal.realText x

end Number

end ImpMachine
