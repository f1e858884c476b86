import ImpMachine.Assembly.Body
import ImpMachine.Image.Basic

/-!
# Assembly

Linear code becomes an image: first the top-level code, then every function in order. Function
bodies are lowered before the top-level code, so that their registers can be reserved. Two passes
lower the same bodies. The first measures them, the second writes each at its final place, where
the address of every function is known, and then fills in the skips.
-/

namespace ImpMachine.Assembly

open Linear

/-- Where a function's code lies. -/
structure Span where
  start : Nat
  length : Nat
  deriving DecidableEq

/-- The offset just past a span. -/
def Span.stop (span : Span) : Nat := span.start + span.length

/-- The places of all code. -/
structure Layout where
  mainLength : Nat
  spans : List Span

/-- Gives every parameter, and the returned value, a register for the whole program. -/
def bindParameters (functions : List Function) : Lowering Unit := do
  functions.forM fun f => f.params.forM fun param => do
    let _ ← allocate (RegisterMap.bindGlobal (qualified f.name param))
  if !functions.isEmpty then
    let _ ← allocate (RegisterMap.bindGlobal returnName)

/-! ## The first pass -/

/-- Lowers a function where the last code ended, and measures it. -/
def measureFunction (table : FunctionTable) (f : Function) : Lowering Span := do
  let start ← position
  lowerFunction table f
  return ⟨start, (← position) - start⟩

/-- Measures all code. The functions come to lie behind the top-level code. -/
def measureAll (signatures : Signatures) (parts : Parts) : Lowering Layout := do
  let table : FunctionTable := ⟨signatures, []⟩
  bindParameters parts.functions
  let spans ← parts.functions.mapM (measureFunction table)
  let start ← position
  lowerMain table parts.main
  let mainLength := (← position) - start
  return ⟨mainLength, spans.map fun span => { span with start := mainLength + span.start }⟩

/-! ## The second pass -/

/-- The code just written has to end where the layout has its end. -/
def checkEnd (label : String) (expected : Nat) : Lowering Unit := do
  let actual ← position
  if expected ≠ actual then throw (.misplaced label expected actual)

/-- Writes a function at its place. -/
def placeFunction (table : FunctionTable) (f : Function) (span : Span) : Lowering Unit := do
  onBuffer (·.seek span.start)
  lowerFunction table f
  checkEnd f.name span.stop

/-- Fills in every operand byte that waits. -/
def resolveAll : Lowering Unit := fun s =>
  let (buffer, result) := s.buffer.resolve
  result.map fun _ => ((), { s with buffer })

/-- The symbol table of labels, all of which have to lie in the range of an address byte. -/
def symbolTable (labels : List (String × Nat)) : Except AssembleError Symbols :=
  labels.foldlM (fun table (name, address) =>
    if maxAddress < address then .error (.functionTooFar name address)
    else .ok (table.insert name (UInt8.ofNat address))) .empty

/-- Writes all code. -/
def placeAll (signatures : Signatures) (parts : Parts) (layout : Layout) : Lowering Image := do
  let names := parts.functions.map (·.name)
  let table : FunctionTable := ⟨signatures, names.zip (layout.spans.map (·.start))⟩
  bindParameters parts.functions
  (parts.functions.zip layout.spans).forM fun (f, span) => placeFunction table f span
  onBuffer (·.seek 0)
  lowerMain table parts.main
  checkEnd "main" layout.mainLength
  resolveAll
  let buffer := (← get).buffer
  return ⟨buffer.code.toList, ← symbolTable buffer.labels⟩

end ImpMachine.Assembly

namespace ImpMachine

open Assembly in
/-- Assembles linear code. -/
def assemble (code : List Linear.Instr) : Except AssembleError Image := do
  match Linear.checkNesting code with
  | .error e => throw (.unbalanced e)
  | .ok () =>
    let parts := split code
    let signatures ← signatures parts.functions
    checkRecursion parts.functions
    let layout ← (measureAll signatures parts).run' .start
    (placeAll signatures parts layout).run' .start

end ImpMachine
