import ImpMachine.Code.Instruction

/-!
# The state of the machine

Eight registers of words, a stack of calls, a stack of loops, the output written so far and the
offset of the next instruction.
-/

namespace ImpMachine

/-- Whether the machine goes on. -/
inductive Status where
  | running
  | halted
  deriving DecidableEq

/-- The name of a status. -/
def Status.name : Status → String
  | .running => "Running"
  | .halted => "Halted"

/-- An entered loop: the register it tests and the offset of its start. -/
structure LoopEntry where
  register : UInt8
  start : Nat
  deriving DecidableEq

/-- A call that has not returned: where to go on, and how many loops were entered before it. -/
structure Frame where
  returnTo : Nat
  loopDepth : Nat
  deriving DecidableEq

/-- The registers of the machine. -/
abbrev RegisterFile := Vector Int64 registerCount

/-- The state of the machine. Calls and loops are listed innermost first. -/
structure Machine where
  registers : RegisterFile
  calls : List Frame
  loops : List LoopEntry
  output : Array Int64
  pc : Nat
  status : Status
  deriving DecidableEq

namespace Machine

/-- All registers zero, at the start of the code. -/
def initial (status : Status) : Machine :=
  ⟨Vector.replicate _ 0, [], [], #[], 0, status⟩

/-- The word in a register. -/
def get (m : Machine) (r : UInt8) : Int64 :=
  m.registers[r.toNat]?.getD 0

/-- The machine with a register set. -/
def set (m : Machine) (r : UInt8) (value : Int64) : Machine :=
  { m with registers := m.registers.setIfInBounds r.toNat value }

/-- The value of a source operand. -/
def value (m : Machine) : Source → Int64
  | .reg r => m.get r
  | .imm v => Int64.ofNat v.toNat

/-- The machine with the next instruction so much further on. -/
def skip (m : Machine) (distance : UInt8) : Machine :=
  { m with pc := m.pc + distance.toNat }

end Machine

end ImpMachine
