/-!
# Fixed-width fields

Columns of the dumps and listings: numbers filled with zeros on the left, names filled with spaces
on either side. A text wider than its field is never cut.
-/

namespace ImpMachine.Text

/-- `s` filled on the left with `fill` up to `width` characters. -/
def padLeft (fill : Char) (width : Nat) (s : String) : String :=
  String.ofList (List.replicate (width - s.length) fill) ++ s

/-- `s` filled on the right with spaces up to `width` characters. -/
def padRight (width : Nat) (s : String) : String :=
  s ++ String.ofList (List.replicate (width - s.length) ' ')

/-- `n` in decimal, filled with zeros up to `width` digits. -/
def zeroPadded (width n : Nat) : String :=
  padLeft '0' width (toString n)

/-- The upper-case hexadecimal digits of `n`, filled with zeros up to `width` digits. -/
def hexPadded (width n : Nat) : String :=
  padLeft '0' width (String.ofList ((Nat.toDigits 16 n).map Char.toUpper))

end ImpMachine.Text
