import ImpMachine.Code.Opcode
import ImpMachine.Text.Pad

/-!
# Machine instructions

Instructions and their bytes. A source operand of an arithmetic instruction is one byte: with its
top bit set it names a register, otherwise it is an immediate. Skips are forward distances from the
end of the instruction. Encoding takes any bytes as operands; decoding refuses registers outside
the register file.
-/

namespace ImpMachine

/-- Machine code. -/
abbrev Code := List UInt8

/-- The bit that tells a register from an immediate in a source operand. -/
def registerFlag : UInt8 := 0x80

/-- The largest immediate of a source operand. -/
def maxSourceImmediate : Nat := 0x7F

/-- A source operand of an arithmetic instruction. -/
inductive Source where
  | reg (r : UInt8)
  | imm (v : UInt8)
  deriving DecidableEq

namespace Source

/-- The byte of a source operand. -/
def encode : Source → UInt8
  | .reg r => registerFlag ||| r
  | .imm v => v

/-- The source operand of a byte. -/
def decode (b : UInt8) : Source :=
  if b &&& registerFlag != 0 then .reg (b &&& ~~~registerFlag) else .imm b

/-- The operand as listings write it. -/
def render : Source → String
  | .reg r => s!"r{r.toNat}"
  | .imm v => s!"#{v.toNat}"

end Source

/-- The arithmetic operations of the machine. -/
inductive ArithOp where
  | add
  | sub
  | mul
  | div
  deriving DecidableEq

/-- The operation code of an arithmetic operation. -/
def ArithOp.opcode : ArithOp → Opcode
  | .add => .add
  | .sub => .sub
  | .mul => .mul
  | .div => .div

/-- A machine instruction. -/
inductive Instruction where
  /-- Loads an unsigned byte into a register. -/
  | mov (dst value : UInt8)
  /-- Computes `a op b` into a register. -/
  | arith (op : ArithOp) (dst : UInt8) (a b : Source)
  /-- Appends a register to the output. -/
  | out (reg : UInt8)
  /-- Calls the code at an address. -/
  | call (addr : UInt8)
  /-- Returns to the caller, or halts when there is none. -/
  | ret
  /-- Skips forward when the register is zero. -/
  | ifZero (reg skip : UInt8)
  /-- Always skips forward. -/
  | jump (distance : UInt8)
  /-- Marks the end of a conditional. -/
  | endIf
  /-- Enters a loop, or skips forward when the register is zero. -/
  | whileLoop (reg skip : UInt8)
  /-- Goes back to the innermost loop's start, unless its register is zero. -/
  | endWhile
  /-- Stops the machine. -/
  | halt
  deriving DecidableEq

/-- Why no instruction can be read at an offset. -/
inductive DecodeError where
  | unknownOpcode (opcode : UInt8) (offset : Nat)
  | truncated (opcode : Opcode) (offset : Nat)
  | invalidRegister (register : UInt8) (offset : Nat)
  | outOfBounds (offset : Nat)
  deriving DecidableEq

/-- The wording of each error. -/
def DecodeError.message : DecodeError → String
  | .unknownOpcode opcode offset =>
    "unknown opcode 0x" ++ Text.hexPadded 2 opcode.toNat ++ s!" at offset {offset}"
  | .truncated opcode offset =>
    "truncated " ++ opcode.mnemonic
      ++ s!" at offset {offset}: needs {opcode.operandCount} operand byte(s)"
  | .invalidRegister register offset =>
    s!"invalid register r{register.toNat} at offset {offset}"
  | .outOfBounds offset => s!"no instruction at offset {offset}"

namespace Instruction

/-- The operation of an instruction. -/
def opcode : Instruction → Opcode
  | .mov .. => .mov
  | .arith op .. => op.opcode
  | .out _ => .out
  | .call _ => .call
  | .ret => .ret
  | .ifZero .. => .ifZero
  | .jump _ => .jump
  | .endIf => .endIf
  | .whileLoop .. => .whileLoop
  | .endWhile => .endWhile
  | .halt => .halt

/-- The number of bytes of an instruction. -/
def width (i : Instruction) : Nat :=
  i.opcode.width

/-- The operand bytes of an instruction. -/
def operandBytes : Instruction → List UInt8
  | .mov dst value => [dst, value]
  | .arith _ dst a b => [dst, a.encode, b.encode]
  | .out reg => [reg]
  | .call addr => [addr]
  | .ifZero reg skip | .whileLoop reg skip => [reg, skip]
  | .jump distance => [distance]
  | .ret | .endIf | .endWhile | .halt => []

/-- The bytes of an instruction. -/
def encode (i : Instruction) : Code :=
  i.opcode.byte :: i.operandBytes

/-- A register operand, which has to name one of the registers. -/
def decodeRegister (offset : Nat) (b : UInt8) : Except DecodeError UInt8 :=
  if b.toNat < registerCount then .ok b else .error (.invalidRegister b offset)

/-- A source operand, whose register has to be one of the registers. -/
def decodeSource (offset : Nat) (b : UInt8) : Except DecodeError Source :=
  match Source.decode b with
  | .reg r => (decodeRegister offset r).map .reg
  | .imm v => .ok (.imm v)

/-- An arithmetic instruction of the given operand bytes. -/
def decodeArith (offset : Nat) (op : ArithOp) (dst a b : UInt8) :
    Except DecodeError Instruction := do
  let dst ← decodeRegister offset dst
  let a ← decodeSource offset a
  let b ← decodeSource offset b
  return .arith op dst a b

/-- The instruction of an operation and the bytes after it. -/
def decodeOperands (offset : Nat) (opcode : Opcode) (bytes : List UInt8) :
    Except DecodeError Instruction :=
  match opcode, bytes with
  | .mov, dst :: value :: _ => (decodeRegister offset dst).map (.mov · value)
  | .add, dst :: a :: b :: _ => decodeArith offset .add dst a b
  | .sub, dst :: a :: b :: _ => decodeArith offset .sub dst a b
  | .mul, dst :: a :: b :: _ => decodeArith offset .mul dst a b
  | .div, dst :: a :: b :: _ => decodeArith offset .div dst a b
  | .out, reg :: _ => (decodeRegister offset reg).map .out
  | .call, addr :: _ => .ok (.call addr)
  | .ret, _ => .ok .ret
  | .ifZero, reg :: skip :: _ => (decodeRegister offset reg).map (.ifZero · skip)
  | .jump, distance :: _ => .ok (.jump distance)
  | .endIf, _ => .ok .endIf
  | .whileLoop, reg :: skip :: _ => (decodeRegister offset reg).map (.whileLoop · skip)
  | .endWhile, _ => .ok .endWhile
  | .halt, _ => .ok .halt
  | opcode, _ => .error (.truncated opcode offset)

/-- The first instruction of the bytes `bytes`, which stand at `offset`. -/
def decodeFirst (offset : Nat) (bytes : List UInt8) : Except DecodeError Instruction :=
  match bytes with
  | [] => .error (.outOfBounds offset)
  | b :: rest =>
    match Opcode.ofByte? b with
    | none => .error (.unknownOpcode b offset)
    | some opcode => decodeOperands offset opcode rest

/-- The instruction at an offset. -/
def decode (code : Code) (offset : Nat) : Except DecodeError Instruction :=
  decodeFirst offset (code.drop offset)

/-- The instruction as listings write it. -/
def render (i : Instruction) : String :=
  let name := i.opcode.mnemonic
  let column := Text.padRight 9 name ++ " "
  match i with
  | .mov dst value => column ++ s!"r{dst.toNat}, {value.toNat}"
  | .arith _ dst a b => column ++ s!"r{dst.toNat}, " ++ a.render ++ ", " ++ b.render
  | .out reg => column ++ s!"r{reg.toNat}"
  | .call addr => column ++ "@" ++ Text.zeroPadded 4 addr.toNat
  | .ifZero reg skip | .whileLoop reg skip => column ++ s!"r{reg.toNat}, +{skip.toNat}"
  | .jump distance => column ++ s!"+{distance.toNat}"
  | .ret | .endIf | .endWhile | .halt => name

end Instruction

end ImpMachine
