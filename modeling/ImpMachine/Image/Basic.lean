import ImpMachine.Code.Instruction
import ImpMachine.Image.Symbols

/-!
# Program images

An assembled program: the code that the machine runs and the addresses of its functions.
-/

namespace ImpMachine

/-- An assembled program. -/
structure Image where
  code : Code
  symbols : Symbols

namespace Image

/-- Bare code without symbols. -/
def ofCode (code : Code) : Image := ⟨code, .empty⟩

/-- The name of the function that starts at an address. -/
def symbolAt? (image : Image) (addr : Nat) : Option String :=
  image.symbols.nameAt? addr

end Image

end ImpMachine
