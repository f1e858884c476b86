/-!
# Operation codes

The byte values of the machine's operations, and how many operand bytes follow each.
-/

namespace ImpMachine

/-- The number of registers. Register operands are below it. -/
def registerCount : Nat := 8

/-- The highest address, and the longest skip, that an operand byte can hold. -/
def maxAddress : Nat := 255

/-- An operation of the machine. -/
inductive Opcode where
  | mov
  | add
  | sub
  | mul
  | div
  | out
  | call
  | ret
  | ifZero
  | jump
  | endIf
  | whileLoop
  | endWhile
  | halt
  deriving DecidableEq

namespace Opcode

/-- Every operation once. -/
def all : List Opcode :=
  [.mov, .add, .sub, .mul, .div, .out, .call, .ret, .ifZero, .jump, .endIf, .whileLoop,
    .endWhile, .halt]

/-- The byte that stands for an operation. -/
def byte : Opcode → UInt8
  | .mov => 0x10
  | .add => 0x11
  | .sub => 0x12
  | .mul => 0x13
  | .div => 0x14
  | .out => 0x20
  | .call => 0x30
  | .ret => 0x40
  | .ifZero => 0x50
  | .jump => 0x51
  | .endIf => 0x52
  | .whileLoop => 0x60
  | .endWhile => 0x61
  | .halt => 0xFF

/-- The operation that a byte stands for. -/
def ofByte? (b : UInt8) : Option Opcode :=
  all.find? (·.byte == b)

/-- The number of operand bytes after the operation. -/
def operandCount : Opcode → Nat
  | .add | .sub | .mul | .div => 3
  | .mov | .ifZero | .whileLoop => 2
  | .out | .call | .jump => 1
  | .ret | .endIf | .endWhile | .halt => 0

/-- The number of bytes of the whole instruction. -/
def width (op : Opcode) : Nat :=
  1 + op.operandCount

/-- The operation's name in listings and messages. -/
def mnemonic : Opcode → String
  | .mov => "MOV"
  | .add => "ADD"
  | .sub => "SUB"
  | .mul => "MUL"
  | .div => "DIV"
  | .out => "OUT"
  | .call => "CALL"
  | .ret => "RETURN"
  | .ifZero => "IF"
  | .jump => "ELSE"
  | .endIf => "END_IF"
  | .whileLoop => "WHILE"
  | .endWhile => "END_WHILE"
  | .halt => "FUNC_END"

/-- Every operation is read back from its byte. -/
theorem ofByte?_byte (op : Opcode) : ofByte? op.byte = some op := by
  cases op <;> decide

/-- Only the byte of an operation is read as it. -/
theorem byte_of_ofByte? {b : UInt8} {op : Opcode} (h : ofByte? b = some op) : op.byte = b := by
  simpa using List.find?_some h

end Opcode

end ImpMachine
