import ImpMachine.Code.Instruction

/-!
# Disassembly

Machine code read as a sequence of instructions from its first byte to its last, and the bytes of
such a sequence.
-/

namespace ImpMachine

/-- An instruction and the offset it was read from. -/
structure Decoded where
  offset : Nat
  instruction : Instruction
  deriving DecidableEq

namespace Decoded

/-- The offset just past the instruction. -/
def stop (d : Decoded) : Nat :=
  d.offset + d.instruction.width

/-- Where control may go other than to the next instruction. -/
def target? (d : Decoded) : Option Nat :=
  match d.instruction with
  | .ifZero _ skip | .whileLoop _ skip => some (d.stop + skip.toNat)
  | .jump distance => some (d.stop + distance.toNat)
  | .call addr => some addr.toNat
  | _ => none

end Decoded

/-- The instructions of `bytes`, which stand at `offset`. -/
def disassembleFrom (offset : Nat) (bytes : Code) : Except DecodeError (List Decoded) :=
  match bytes with
  | [] => .ok []
  | b :: rest =>
    match Instruction.decodeFirst offset (b :: rest) with
    | .error e => .error e
    | .ok i =>
      (disassembleFrom (offset + i.width) (rest.drop (i.width - 1))).map (⟨offset, i⟩ :: ·)
termination_by bytes.length
decreasing_by simp only [List.length_drop, List.length_cons]; omega

/-- The instructions of a whole piece of code. -/
def disassemble (code : Code) : Except DecodeError (List Decoded) :=
  disassembleFrom 0 code

/-- The bytes of a sequence of instructions. -/
def encodeAll (instructions : List Instruction) : Code :=
  instructions.flatMap Instruction.encode

end ImpMachine
