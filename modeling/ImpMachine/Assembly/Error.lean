import ImpMachine.Linear.Nesting

/-!
# Assembly errors

Everything that can stop linear code from becoming machine code.
-/

namespace ImpMachine

/-- Why an operand has no value at run time. -/
inductive OperandFault where
  | notInteger
  | isText
  deriving DecidableEq

/-- The wording of each fault. -/
def OperandFault.message : OperandFault → String
  | .notInteger => "only integers exist at runtime"
  | .isText => "strings have no runtime representation"

/-- Why linear code cannot be assembled. -/
inductive AssembleError where
  /-- A call names no declared function. -/
  | undefinedFunction (name : String)
  /-- A placeholder has no target, or lies outside the code. -/
  | unresolved (offset : Nat)
  /-- All registers are held when one more is needed. -/
  | noFreeRegister (name live : String)
  /-- A function starts beyond the range of an address byte. -/
  | functionTooFar (label : String) (address : Nat)
  /-- A jump is longer than a skip byte can say. -/
  | skipTooLong (offset distance : Nat)
  /-- An operand has no value at run time. -/
  | unsupported (operand : String) (fault : OperandFault)
  /-- A call has too many or too few arguments. -/
  | wrongArity (name : String) (expected got : Nat)
  /-- Two functions have one name. -/
  | duplicateFunction (name : String)
  /-- A function can call itself, through the functions listed. -/
  | recursion (cycle : List String)
  /-- The constructs of the code are not properly nested. -/
  | unbalanced (error : Linear.StructureError)
  /-- A piece of code did not end where the layout has its end. -/
  | misplaced (label : String) (expected actual : Nat)

/-- The wording of each error after its heading. -/
def AssembleError.detail : AssembleError → String
  | .undefinedFunction name =>
    s!"call to undefined function '{name}'\n" ++
      s!"  hint: declare it with `func {name}(...) \x7b ... \x7d`"
  | .unresolved offset => s!"internal error: placeholder at offset {offset} was never resolved"
  | .noFreeRegister name live =>
    s!"no free register for '{name}' (live: {live})\n  hint: at most 8 values can be live at once; "
      ++ "split long expressions or scope variables in blocks"
  | .functionTooFar label address =>
    s!"function '{label}' starts at offset {address}, beyond the one-byte address range\n"
      ++ "  hint: shorten the main program or move large functions last"
  | .skipTooLong offset distance =>
    s!"skip of {distance} bytes at offset {offset} does not fit in one byte\n"
      ++ "  hint: move part of the body into a function"
  | .unsupported operand fault => s!"cannot load '{operand}' into a register: " ++ fault.message
  | .wrongArity name expected got =>
    s!"'{name}' takes {expected} argument(s) but {got} were given"
  | .duplicateFunction name => s!"function '{name}' is declared more than once"
  | .recursion cycle =>
    "recursive call " ++ " -> ".intercalate cycle ++ "\n  hint: a function cannot call itself, "
      ++ "directly or through other functions; use a while loop instead"
  | .unbalanced error => "unbalanced IR: " ++ error.message
  | .misplaced label expected actual =>
    s!"internal error: '{label}' laid out at {expected} but emitted at {actual}"

/-- The wording of each error. -/
def AssembleError.message (error : AssembleError) : String :=
  "assemble error: " ++ error.detail

end ImpMachine
