import ImpMachine.Assembly.RegisterMap
import ImpMachine.Code.Disassembly
import ImpMachine.Tree.Basic

/-!
# Instruction sequences

The fixed sequences that compute what the machine has no instruction for: constants wider than a
byte, remainders, comparisons and the logical operators. Division rounds down, and a zero divisor
gives zero, so a remainder by zero is the dividend.

The arithmetic sequences read their inputs before they first write `dst`, so `dst` may be the
register of an input. The choices write `dst` first.
-/

namespace ImpMachine.Assembly

/-- A register as a source operand. -/
def regSource (r : Register) : Source := .reg r.byte

/-- `dst = value`. -/
def mov (dst : Register) (value : UInt8) : Instruction := .mov dst.byte value

/-- `dst = a op b`. -/
def arith (op : ArithOp) (dst : Register) (a b : Source) : Instruction := .arith op dst.byte a b

/-- A conditional that skips the given instructions when the register is zero. -/
def skipUnless (r : Register) (body : List Instruction) : Instruction :=
  .ifZero r.byte (UInt8.ofNat (encodeAll body).length)

/-- `dst = r`. -/
def copy (dst r : Register) : Instruction := arith .add dst (regSource r) (.imm 0)

/-! ## Constants -/

/-- The base in which wide constants are built. -/
def constantBase : Nat := maxSourceImmediate

/-- `dst = n`, digit by digit. -/
def loadNatural (dst : Register) (n : Nat) : List Instruction :=
  if n ≤ maxAddress then [mov dst (UInt8.ofNat n)]
  else
    let low := n % constantBase
    loadNatural dst (n / constantBase)
      ++ arith .mul dst (regSource dst) (.imm (UInt8.ofNat constantBase))
      :: if low = 0 then [] else [arith .add dst (regSource dst) (.imm (UInt8.ofNat low))]
termination_by n
decreasing_by
  rename_i h
  exact Nat.div_lt_self (by simp only [maxAddress] at h; omega) (by decide)

/-- `dst = value`. A wide negative constant `-(m + 1)` is built from `m`, which is a word. -/
def loadConstant (dst : Register) (value : Int64) : List Instruction :=
  match value.toInt with
  | .ofNat n => loadNatural dst n
  | .negSucc m =>
    if m < constantBase then [arith .sub dst (.imm 0) (.imm (UInt8.ofNat (m + 1)))]
    else loadNatural dst m
      ++ [arith .sub dst (.imm 0) (regSource dst), arith .sub dst (regSource dst) (.imm 1)]

/-! ## Arithmetic -/

/-- `dst = a - (a / b) * b`, with the quotient in `q`. -/
def remainder (dst q : Register) (a b : Source) : List Instruction :=
  [arith .div q a b, arith .mul q (regSource q) b, arith .sub dst a (regSource q)]

/-- `dst = x - (x / 2) * 2`. -/
def parity (dst : Register) (x : Source) : List Instruction :=
  [arith .div dst x (.imm 2), arith .mul dst (regSource dst) (.imm 2),
    arith .sub dst x (regSource dst)]

/-- `dst = 2 ^ 62`, as `128 ^ 8 * 64`. -/
def loadSignDivisor (dst : Register) : List Instruction :=
  let square := arith .mul dst (regSource dst) (regSource dst)
  [mov dst 128, square, square, square, arith .mul dst (regSource dst) (.imm 64)]

/-- `dst = 1` if `a < b`, else `0`. The difference of two words need not be a word, but half of it,
rounded down, is one: it is built in `e` from the halves and parities of both, with `t` for
intermediate values, and its sign is what is left of it after division by `2 ^ 64`. -/
def lessThan (dst e t : Register) (a b : Source) : List Instruction :=
  parity e a ++ parity t b
    ++ [arith .sub e (regSource e) (regSource t), arith .div e (regSource e) (.imm 2),
      arith .div t a (.imm 2), arith .add e (regSource e) (regSource t),
      arith .div t b (.imm 2), arith .sub e (regSource e) (regSource t)]
    ++ loadSignDivisor t
    ++ [arith .div e (regSource e) (regSource t), arith .div e (regSource e) (.imm 4),
      arith .sub dst (.imm 0) (regSource e)]

/-! ## Choices -/

/-- `dst = nonzero` unless `r` is zero, else `zero`. -/
def choose (dst r : Register) (zero nonzero : UInt8) : List Instruction :=
  [mov dst zero, skipUnless r [mov dst nonzero], mov dst nonzero, .endIf]

/-- `dst = 1` if `a` and `b` are both nonzero, else `0`. -/
def conjunction (dst a b : Register) : List Instruction :=
  let inner := [skipUnless b [mov dst 1], mov dst 1, .endIf]
  [mov dst 0, skipUnless a inner] ++ inner ++ [.endIf]

/-- `dst = 1` if `a` or `b` is nonzero, else `0`. -/
def disjunction (dst a b : Register) : List Instruction :=
  let inner := [mov dst 0, skipUnless b [mov dst 1], mov dst 1, .endIf]
  let skipInner := Instruction.jump (UInt8.ofNat (encodeAll inner).length)
  [mov dst 1, skipUnless a [skipInner], skipInner] ++ inner ++ [.endIf]

end ImpMachine.Assembly
