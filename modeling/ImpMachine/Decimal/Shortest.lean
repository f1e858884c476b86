/-!
# The shortest decimal that reads back

A finite positive double is `m * 2 ^ q`. Every real closer to it than to its neighbours reads back
as the same double, and so do the two midpoints when `m` is even. Of the decimals `c * 10 ^ e` in
that interval the one with the largest `e` has the fewest digits. On each grid `10 ^ e` only the two
grid points around the value need to be tried, in exact arithmetic; of two hits the nearer one is
taken, and the upper one when both are equally near.
-/

namespace ImpMachine.Decimal

/-- A finite positive double `mantissa * 2 ^ exponent`. The flag says that the gap to the next
smaller double is half as wide as the gap above. -/
structure Binary where
  mantissa : Nat
  exponent : Int
  narrowBelow : Bool

/-- A decimal `digits * 10 ^ exponent`. -/
structure Scientific where
  digits : Nat
  exponent : Int
  deriving DecidableEq

/-- The leading bit of a mantissa, `2 ^ 52`, which is not stored. -/
def hiddenBit : Nat := 0x10000000000000

/-- Decodes the magnitude bits of a finite double. -/
def Binary.ofBits (bits : UInt64) : Binary :=
  let fraction : Nat := bits.toNat % hiddenBit
  let biased : Nat := bits.toNat / hiddenBit % 2048
  if biased = 0 then ⟨fraction, -1074, false⟩
  else ⟨fraction + hiddenBit, (biased : Int) - 1075, fraction = 0 && 1 < biased⟩

/-- Lower end of the interval that reads back, in quarters of `2 ^ exponent`. -/
def Binary.lowQuarters (b : Binary) : Nat :=
  if b.narrowBelow then 4 * b.mantissa - 1 else 4 * b.mantissa - 2

/-- Upper end of the interval that reads back, in quarters of `2 ^ exponent`. -/
def Binary.highQuarters (b : Binary) : Nat :=
  4 * b.mantissa + 2

/-- Weight of a quarter of `2 ^ exponent` on the grid `10 ^ e`, cleared of denominators. -/
def Binary.quarterWeight (b : Binary) (e : Int) : Nat :=
  Nat.pow 2 (b.exponent - 2).toNat * Nat.pow 10 (-e).toNat

/-- Weight of `10 ^ e` on that same scale. -/
def Binary.gridWeight (b : Binary) (e : Int) : Nat :=
  Nat.pow 10 e.toNat * Nat.pow 2 (2 - b.exponent).toNat

/-- The decimal `c * 10 ^ e` reads back as the double. -/
def Binary.holds (b : Binary) (e : Int) (c : Nat) : Bool :=
  let point := c * b.gridWeight e
  let low := b.lowQuarters * b.quarterWeight e
  let high := b.highQuarters * b.quarterWeight e
  if b.mantissa % 2 = 0 then low ≤ point && point ≤ high else low < point && point < high

/-- The point of the grid `10 ^ e` to print, if one reads back. -/
def Binary.onGrid (b : Binary) (e : Int) : Option Nat :=
  let unit := b.gridWeight e
  let value := 4 * b.mantissa * b.quarterWeight e
  let below := value / unit
  match b.holds e below, b.holds e (below + 1) with
  | true, true => if 2 * (value % unit) < unit then some below else some (below + 1)
  | true, false => some below
  | false, true => some (below + 1)
  | false, false => none

/-- The first grid with a hit, from `10 ^ e` downwards. -/
def Binary.search (b : Binary) : Nat → Int → Scientific
  | 0, e => ⟨0, e⟩
  | fuel + 1, e =>
    match b.onGrid e with
    | some digits => ⟨digits, e⟩
    | none => b.search fuel (e - 1)

/-- A power of ten above the value, to start the search from. -/
def Binary.topExponent (b : Binary) : Int :=
  ((Nat.log2 b.mantissa : Int) + 1 + b.exponent) * 30103 / 100000 + 2

/-- The shortest decimal that reads back, for a positive finite double. -/
def Binary.shortest (b : Binary) : Scientific :=
  b.search 400 b.topExponent

/-- Digits without an exponent: `0.001`, `12.5`, `1200`. -/
def Scientific.positional (s : Scientific) : String :=
  let digits := Nat.toDigits 10 s.digits
  let point := (digits.length : Int) + s.exponent
  if 0 ≤ s.exponent then
    String.ofList (digits ++ List.replicate s.exponent.toNat '0')
  else if 0 < point then
    String.ofList (digits.take point.toNat ++ '.' :: digits.drop point.toNat)
  else
    String.ofList ('0' :: '.' :: List.replicate (-point).toNat '0' ++ digits)

/-- One digit before the point and an exponent: `1e20`, `1.5e-7`. -/
def Scientific.exponential (s : Scientific) : String :=
  let digits := Nat.toDigits 10 s.digits
  let power := (digits.length : Int) - 1 + s.exponent
  let tail := digits.drop 1
  let fraction := if tail.isEmpty then [] else '.' :: tail
  String.ofList (digits.take 1 ++ fraction ++ ['e']) ++ toString power

end ImpMachine.Decimal
