import ImpMachine.Arithmetic
import ImpMachine.Machine.State

/-!
# Executing instructions

What each instruction does to the machine. The offset of the next instruction is set before the
instruction takes effect, so skips are measured from the end of the instruction. At the end of a
loop's body the machine goes back to the loop's start, which tests the register again and enters
the loop anew.
-/

namespace ImpMachine

/-- The arithmetic of the machine: words wrap around, division rounds down. -/
def ArithOp.apply : ArithOp → Int64 → Int64 → Int64
  | .add, a, b => a + b
  | .sub, a, b => a - b
  | .mul, a, b => a * b
  | .div, a, b => Arithmetic.floorDiv a b

namespace Machine

/-- The machine with the instruction after `i` as the next one. -/
def advance (m : Machine) (i : Instruction) : Machine :=
  { m with pc := m.pc + i.width }

/-- Calls the code at an address. -/
def call (m : Machine) (addr : Nat) : Machine :=
  { m with calls := ⟨m.pc, m.loops.length⟩ :: m.calls, pc := addr }

/-- Returns from the innermost call and leaves the loops entered since. Without a call it stops at
the end of the code. -/
def ret (m : Machine) (codeLength : Nat) : Machine :=
  match m.calls with
  | [] => { m with pc := codeLength, status := .halted }
  | frame :: calls =>
    { m with calls, pc := frame.returnTo, loops := m.loops.drop (m.loops.length - frame.loopDepth) }

/-- Leaves the innermost loop, and goes back to its start unless its register is zero. -/
def endLoop (m : Machine) : Machine :=
  match m.loops with
  | [] => m
  | entry :: loops =>
    { m with loops, pc := if m.get entry.register = 0 then m.pc else entry.start }

/-- The machine after the instruction at its offset. -/
def execute (m : Machine) (codeLength : Nat) (i : Instruction) : Machine :=
  let next := m.advance i
  match i with
  | .mov dst value => next.set dst (Int64.ofNat value.toNat)
  | .arith op dst a b => next.set dst (op.apply (m.value a) (m.value b))
  | .out reg => { next with output := m.output.push (m.get reg) }
  | .call addr => next.call addr.toNat
  | .ret => next.ret codeLength
  | .ifZero reg skip => if m.get reg = 0 then next.skip skip else next
  | .jump distance => next.skip distance
  | .endIf => next
  | .whileLoop reg skip =>
    if m.get reg = 0 then next.skip skip else { next with loops := ⟨reg, m.pc⟩ :: m.loops }
  | .endWhile => next.endLoop
  | .halt => { next with status := .halted }

end Machine

end ImpMachine
