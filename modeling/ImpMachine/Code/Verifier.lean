import ImpMachine.Code.Disassembly

/-!
# Static check of machine code

Code is accepted when every byte belongs to an instruction, skips land on an instruction or just
past the code, calls land on an instruction, and every loop is closed by its own end mark and exits
just past it. Conditionals are plain forward jumps to the machine, so their nesting is not looked
at.
-/

namespace ImpMachine

/-- Why code is refused. -/
inductive VerifyError where
  | undecodable (error : DecodeError)
  | badTarget (opcode : Opcode) (offset target : Nat)
  | unmatchedEndWhile (offset : Nat)
  | loopExit (offset target expected : Nat)
  | unclosedWhile (offset : Nat)
  deriving DecidableEq

/-- The wording of each error. -/
def VerifyError.message (e : VerifyError) : String :=
  "verify error: " ++ match e with
    | .undecodable error => error.message
    | .badTarget opcode offset target =>
      opcode.mnemonic
        ++ s!" at offset {offset} targets {target}, which is not an instruction boundary"
    | .unmatchedEndWhile offset => s!"END_WHILE at offset {offset} has no open WHILE"
    | .loopExit offset target expected =>
      s!"WHILE at offset {offset} exits to {target}, expected {expected} (past its END_WHILE)"
    | .unclosedWhile offset => s!"WHILE at offset {offset} is never closed"

namespace Verifier

/-- The target is a place where control may arrive from the instruction. -/
def lands (length : Nat) (boundaries : List Nat) (d : Decoded) (target : Nat) : Bool :=
  match d.instruction with
  | .call _ => boundaries.contains target
  | _ => boundaries.contains target || target == length

/-- Checks the targets of a sequence of instructions, in order. -/
def checkTargets (length : Nat) (boundaries : List Nat) :
    List Decoded → Except VerifyError Unit
  | [] => .ok ()
  | d :: rest =>
    match d.target? with
    | none => checkTargets length boundaries rest
    | some target =>
      if lands length boundaries d target then checkTargets length boundaries rest
      else .error (.badTarget d.instruction.opcode d.offset target)

/-- Checks the loops of a sequence of instructions, given the loops still open, innermost first. -/
def checkLoops (opened : List Decoded) : List Decoded → Except VerifyError Unit
  | [] =>
    match opened with
    | [] => .ok ()
    | innermost :: _ => .error (.unclosedWhile innermost.offset)
  | d :: rest =>
    match d.instruction with
    | .whileLoop .. => checkLoops (d :: opened) rest
    | .endWhile =>
      match opened with
      | [] => .error (.unmatchedEndWhile d.offset)
      | start :: outer =>
        let target := start.target?.getD start.stop
        if target = d.stop then checkLoops outer rest
        else .error (.loopExit start.offset target d.stop)
    | _ => checkLoops opened rest

end Verifier

/-- Checks machine code before it is run. -/
def verify (code : Code) : Except VerifyError Unit :=
  match disassemble code with
  | .error e => .error (.undecodable e)
  | .ok decoded => do
    Verifier.checkTargets code.length (decoded.map (·.offset)) decoded
    Verifier.checkLoops [] decoded

end ImpMachine
