import ImpMachine.Linear.Basic

/-!
# Nesting of linear code

Constructs of linear code have to be closed by their own end marks, in properly nested order, and
an `if` has at most one `else`. The check walks over the code with a stack of the constructs still
open and stops at the first instruction that does not fit.
-/

namespace ImpMachine.Linear

/-- The constructs that enclose other instructions. -/
inductive Construct where
  | conditional
  | loop
  | function
  | macroBody
  | block
  deriving DecidableEq

/-- The mnemonic of the instruction that opens a construct. -/
def Construct.opener : Construct → String
  | .conditional => "IF"
  | .loop => "WHILE"
  | .function => "FUNC_DECL"
  | .macroBody => "MACRO_DECL"
  | .block => "BLOCK_START"

/-- The construct that an instruction opens. -/
def Instr.opens? : Instr → Option Construct
  | .ifBegin _ => some .conditional
  | .whileBegin _ => some .loop
  | .funcDecl .. => some .function
  | .macroDecl _ => some .macroBody
  | .blockStart => some .block
  | _ => none

/-- The construct that an instruction closes. -/
def Instr.closes? : Instr → Option Construct
  | .endIf => some .conditional
  | .endWhile => some .loop
  | .endFunc => some .function
  | .endMacro => some .macroBody
  | .blockEnd => some .block
  | _ => none

/-- How an instruction breaks the nesting. -/
inductive StructureFault where
  | secondElse
  | elseInside (construct : Construct)
  | elseWithoutIf
  | wrongClose (mnemonic : String) (construct : Construct) (openedAt : Nat)
  | closeWithoutOpen (mnemonic : String) (construct : Construct)
  | neverClosed (construct : Construct)
  | misplaced (mnemonic : String)
  | openAtEnd
  deriving DecidableEq

/-- The wording of each fault. -/
def StructureFault.message : StructureFault → String
  | .secondElse => "second ELSE for the same IF"
  | .elseInside construct => "ELSE inside " ++ construct.opener ++ " without an enclosing IF"
  | .elseWithoutIf => "ELSE without IF"
  | .wrongClose mnemonic construct openedAt =>
    mnemonic ++ " closes " ++ construct.opener ++ s!" opened at ir[{openedAt}]"
  | .closeWithoutOpen mnemonic construct => mnemonic ++ " without " ++ construct.opener
  | .neverClosed construct => construct.opener ++ " is never closed"
  | .misplaced mnemonic => "unexpected " ++ mnemonic
  | .openAtEnd => "construct is never closed"

/-- A fault and the index of the instruction it was found at. -/
structure StructureError where
  index : Nat
  fault : StructureFault
  deriving DecidableEq

/-- Index and cause. -/
def StructureError.message (e : StructureError) : String :=
  s!"ir[{e.index}]: " ++ e.fault.message

/-- A construct that has been opened and not yet closed. -/
structure Opened where
  index : Nat
  construct : Construct
  hasElse : Bool
  deriving DecidableEq

/-- Takes an `else` on the innermost construct. -/
def takeElse (index : Nat) : List Opened → Except StructureError (List Opened)
  | [] => .error ⟨index, .elseWithoutIf⟩
  | innermost :: outer =>
    if innermost.construct = .conditional then
      if innermost.hasElse then .error ⟨index, .secondElse⟩
      else .ok ({ innermost with hasElse := true } :: outer)
    else .error ⟨index, .elseInside innermost.construct⟩

/-- Takes an end mark on the innermost construct. -/
def takeClose (index : Nat) (mnemonic : String) (construct : Construct) :
    List Opened → Except StructureError (List Opened)
  | [] => .error ⟨index, .closeWithoutOpen mnemonic construct⟩
  | innermost :: outer =>
    if innermost.construct = construct then .ok outer
    else .error ⟨index, .wrongClose mnemonic innermost.construct innermost.index⟩

/-- The open constructs after one instruction, innermost first. -/
def nestingStep (index : Nat) (stack : List Opened) (i : Instr) :
    Except StructureError (List Opened) :=
  match i.opens?, i.closes? with
  | some construct, _ => .ok (⟨index, construct, false⟩ :: stack)
  | none, some construct => takeClose index i.mnemonic construct stack
  | none, none =>
    match i with
    | .elseMark => takeElse index stack
    | _ => .ok stack

/-- The open constructs after a list of instructions, the first of which has the given index. -/
def nestingFrom (index : Nat) (stack : List Opened) :
    List Instr → Except StructureError (List Opened)
  | [] => .ok stack
  | i :: rest =>
    match nestingStep index stack i with
    | .error e => .error e
    | .ok stack => nestingFrom (index + 1) stack rest

/-- Checks that every construct is properly nested and closed. -/
def checkNesting (code : List Instr) : Except StructureError Unit :=
  match nestingFrom 0 [] code with
  | .error e => .error e
  | .ok [] => .ok ()
  | .ok (innermost :: _) => .error ⟨innermost.index, .neverClosed innermost.construct⟩

end ImpMachine.Linear
