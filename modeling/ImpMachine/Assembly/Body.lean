import ImpMachine.Assembly.Load

/-!
# Lowering bodies

Writes the code of one body, the top-level code or a function's. The skips of conditionals and
loops are filled in later, when the ends of the constructs are known. A loop over a variable tests
the variable's own register; over any other condition it holds a temporary for its whole length and
computes the condition into it again before each further round.
-/

namespace ImpMachine.Assembly

open Linear

/-- The register that a loop tests. -/
inductive LoopTest where
  /-- A variable's own register. -/
  | variable (r : Register)
  /-- A temporary into which the condition is computed before each round. -/
  | computed (r : Register) (condition : Operand)

/-- The register tested. -/
def LoopTest.register : LoopTest → Register
  | .variable r | .computed r _ => r

/-- A construct whose end was not reached yet. -/
inductive OpenConstruct where
  | conditional (block : Nat)
  | loop (block : Nat) (test : LoopTest)
  | block

/-- The state of lowering. -/
structure Progress where
  buffer : Buffer
  registers : RegisterMap
  scope : Option Scope
  constructs : List OpenConstruct

/-- Before anything is lowered. -/
def Progress.start : Progress := ⟨.empty, .empty, none, []⟩

/-- A step of lowering. -/
abbrev Lowering := StateT Progress (Except AssembleError)

/-! ## Steps -/

/-- Changes the code. -/
def onBuffer (f : Buffer → Buffer) : Lowering Unit :=
  modify fun s => { s with buffer := f s.buffer }

/-- Changes the register map. -/
def onRegisters (f : RegisterMap → RegisterMap) : Lowering Unit :=
  modify fun s => { s with registers := f s.registers }

/-- Makes a request to the register map. -/
def allocate {α : Type} (request : Allocation α) : Lowering α := fun s =>
  (request s.registers).map fun (a, registers) => (a, { s with registers })

/-- The offset at which code is written next. -/
def position : Lowering Nat :=
  return (← get).buffer.cursor

/-- Writes one piece of code. -/
def Piece.write (piece : Piece) (buffer : Buffer) : Buffer :=
  match piece.fixup with
  | none => buffer.emit piece.instruction
  | some kind => buffer.emitFixup piece.instruction kind

/-- Writes code. -/
def write (pieces : List Piece) : Lowering Unit :=
  onBuffer fun buffer => pieces.foldl (fun buffer piece => piece.write buffer) buffer

/-- Writes one instruction. -/
def emit (i : Instruction) : Lowering Unit :=
  write [⟨i, none⟩]

/-- Opens a numbered block. -/
def openBlock : Lowering Nat := do
  let block := (← get).buffer.nextBlock
  onBuffer Buffer.openBlock
  return block

/-- Enters a construct. -/
def enter (construct : OpenConstruct) : Lowering Unit :=
  modify fun s => { s with constructs := construct :: s.constructs }

/-- Leaves the innermost construct. -/
def leave : Lowering (Option OpenConstruct) := do
  match (← get).constructs with
  | [] => return none
  | construct :: outer =>
    modify fun s => { s with constructs := outer }
    return some construct

/-- What operands are lowered in at this point. -/
def environment (table : FunctionTable) : Lowering Environment :=
  return ⟨table, (← get).scope⟩

/-- Makes a name the function's own from here on. Top-level code has no names of its own. -/
def declareLocal (name : String) : Lowering Unit :=
  modify fun s =>
    { s with scope := s.scope.map fun scope => { scope with locals := name :: scope.locals } }

/-! ## Instructions -/

/-- An instruction stands where its kind cannot. -/
def misplaced {α : Type} (index : Nat) (i : Instr) : Lowering α :=
  throw (.unbalanced ⟨index, .misplaced i.mnemonic⟩)

/-- Sets a variable. -/
def assign (table : FunctionTable) (name : String) (value : Operand) : Lowering Unit := do
  let env ← environment table
  let binding ← allocate (RegisterMap.bind (env.key name))
  write (← allocate (load env value binding.register))

/-- Calls a function and leaves its result alone. -/
def callFunction (table : FunctionTable) (callee : String) (args : List Operand) :
    Lowering Unit := do
  let env ← environment table
  write (← allocate (callCode env callee (loads env args)))

/-- Evaluates an operand, and continues with a register that has its value. The register is given
back afterwards. -/
def withRegister (table : FunctionTable) (operand : Operand) (use : Register → Lowering Unit) :
    Lowering Unit := do
  let env ← environment table
  let fetched ← allocate (fetchRegister env operand (load env operand))
  write fetched.code
  use fetched.place
  allocate (release fetched.temporaries)

/-- The test of a loop, computed for the first time. -/
def beginTest (table : FunctionTable) (condition : Operand) : Lowering LoopTest := do
  let env ← environment table
  match condition with
  | .var name =>
    let (r, code) ← allocate (readVariable env name)
    write code
    return .variable r
  | _ =>
    let fetched ← allocate (viaTemporary (load env condition))
    write fetched.code
    return .computed fetched.place condition

/-- Computes a loop's test again. -/
def repeatTest (table : FunctionTable) : LoopTest → Lowering Unit
  | .variable _ => return
  | .computed r condition => do
    let env ← environment table
    write (← allocate (load env condition r))

/-- Gives the register of a loop's test back. -/
def endTest : LoopTest → Lowering Unit
  | .variable _ => return
  | .computed r _ => allocate (release [r])

/-- Lowers the instruction at an index of its body. -/
def lowerInstr (table : FunctionTable) (index : Nat) (i : Instr) : Lowering Unit := do
  match i with
  | .declare name value =>
    declareLocal name
    assign table name value
  | .assign name value => assign table name value
  | .print value => withRegister table value fun r => emit (.out r.byte)
  | .call callee args | .expr (.call callee args) => callFunction table callee args
  | .expr value =>
    let env ← environment table
    let fetched ← allocate (viaTemporary (load env value))
    write fetched.code
    allocate (release fetched.temporaries)
  | .ret value =>
    let env ← environment table
    let binding ← allocate (RegisterMap.bindGlobal returnName)
    write (← allocate (load env value binding.register))
    emit .ret
  | .ifBegin cond =>
    withRegister table cond fun r => do
      let block ← openBlock
      write [⟨.ifZero r.byte 0, some (.ifSkip block)⟩]
      enter (.conditional block)
  | .elseMark =>
    match (← get).constructs with
    | .conditional block :: _ =>
      write [⟨.jump 0, some (.elseSkip block)⟩]
      onBuffer (·.markElseBody block)
    | _ => misplaced index i
  | .endIf =>
    match ← leave with
    | some (.conditional block) =>
      let stop ← position
      onBuffer (·.closeBlock block stop)
      emit .endIf
    | _ => misplaced index i
  | .whileBegin cond =>
    let test ← beginTest table cond
    let block ← openBlock
    write [⟨.whileLoop test.register.byte 0, some (.whileSkip block)⟩]
    enter (.loop block test)
  | .endWhile =>
    match ← leave with
    | some (.loop block test) =>
      repeatTest table test
      emit .endWhile
      let stop ← position
      onBuffer (·.closeBlock block stop)
      endTest test
    | _ => misplaced index i
  | .blockStart =>
    onRegisters RegisterMap.pushScope
    enter .block
  | .blockEnd =>
    match ← leave with
    | some .block => onRegisters RegisterMap.popScope
    | _ => misplaced index i
  | .funcDecl .. | .endFunc | .macroDecl _ | .endMacro => misplaced index i

/-- Lowers instructions, the first of which has the given index. -/
def lowerFrom (table : FunctionTable) (index : Nat) : List Instr → Lowering Unit
  | [] => return
  | i :: rest => do
    lowerInstr table index i
    lowerFrom table (index + 1) rest

/-- Lowers a whole body. -/
def lowerBody (table : FunctionTable) (body : List Instr) : Lowering Unit := do
  modify fun s => { s with constructs := [] }
  lowerFrom table 0 body
  if !(← get).constructs.isEmpty then throw (.unbalanced ⟨body.length, .openAtEnd⟩)

/-- Lowers the top-level code, which ends by stopping the machine. -/
def lowerMain (table : FunctionTable) (main : List Instr) : Lowering Unit := do
  lowerBody table main
  emit .halt

/-- The last instruction of the body returns. -/
def endsInReturn (body : List Instr) : Bool :=
  match body.getLast? with
  | some (.ret _) => true
  | _ => false

/-- Sets a function's label to this place. -/
def defineLabel (name : String) : Lowering Unit := fun s =>
  let (buffer, result) := s.buffer.defineLabel name
  result.map fun _ => ((), { s with buffer })

/-- Lowers a function. The registers that it used and that are free afterwards stay its own. -/
def lowerFunction (table : FunctionTable) (f : Function) : Lowering Unit := do
  onRegisters RegisterMap.resetTouched
  defineLabel f.name
  modify fun s => { s with scope := some ⟨f.name, f.params⟩ }
  lowerBody table f.body
  if !endsInReturn f.body then emit .ret
  modify fun s => { s with scope := none }
  onRegisters RegisterMap.reserveTouched

end ImpMachine.Assembly
