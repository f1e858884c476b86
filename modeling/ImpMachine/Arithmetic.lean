/-!
# Arithmetic of the language

Integers are 64-bit words whose sums, differences and products wrap. Division rounds down, and a
zero divisor yields zero; the remainder is what division leaves, so it takes the sign of the
divisor. The constant folder and the register machine both use these functions, so a folded
constant is what the machine computes.
-/

namespace ImpMachine.Arithmetic

/-- The quotient rounded down, wrapped to a word. A zero divisor yields zero. -/
def floorDiv (a b : Int64) : Int64 :=
  Int64.ofInt (a.toInt.fdiv b.toInt)

/-- What floor division leaves: `a - floorDiv a b * b`. -/
def floorMod (a b : Int64) : Int64 :=
  a - floorDiv a b * b

/-- Floor division of doubles. A zero divisor yields zero. -/
def floorDivReal (a b : Float) : Float :=
  if b == 0.0 then 0.0 else (a / b).floor

/-- What floor division of doubles leaves. -/
def floorModReal (a b : Float) : Float :=
  a - floorDivReal a b * b

end ImpMachine.Arithmetic
