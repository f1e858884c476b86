import ImpMachine.Linear.Basic

/-!
# Findings about linear code

Two passes that never fail. `undeclared` reports every use of a name before it was declared or
assigned, and every assignment to a name that was never declared. `refold` folds the right-hand
sides that are not constants already and reports each one that changed.

Macro bodies are templates, so names inside them are not looked at. Parameters count as declared.
-/

namespace ImpMachine.Linear

/-- What was found. -/
inductive Finding where
  | assignBeforeDeclare (name : String)
  | useBeforeDeclare (name : String)
  | refolded (name before after : String)
  deriving DecidableEq

/-- A finding and the index of its instruction. -/
structure Diagnostic where
  index : Nat
  finding : Finding
  deriving DecidableEq

/-- How serious a finding is. -/
inductive Severity where
  | warning
  | note
  deriving DecidableEq

namespace Diagnostic

/-- Only the refolding of a right-hand side is harmless. -/
def severity (d : Diagnostic) : Severity :=
  match d.finding with
  | .refolded .. => .note
  | _ => .warning

/-- Index, severity and cause. -/
def message (d : Diagnostic) : String :=
  let place := s!"ir[{d.index}]: "
  match d.finding with
  | .assignBeforeDeclare name =>
    place ++ "warning: assignment to undeclared variable '" ++ name ++ "'"
  | .useBeforeDeclare name => place ++ "warning: use of undeclared variable '" ++ name ++ "'"
  | .refolded name before after =>
    place ++ "note: optimized " ++ name ++ ": " ++ before ++ " -> " ++ after

end Diagnostic

/-! ## Declarations -/

/-- The names known at a point of the code, and how many macro bodies are open there. -/
structure Known where
  declared : List String
  assigned : List String
  macroDepth : Nat

/-- Nothing is known at the start. -/
def Known.initial : Known := ⟨[], [], 0⟩

/-- The name may be read. -/
def Known.readable (known : Known) (name : String) : Bool :=
  known.declared.contains name || known.assigned.contains name

/-- The reads of unknown names in an instruction, in order. -/
def unknownReads (known : Known) (i : Instr) : List String :=
  (i.operands.flatMap Operand.reads).filter (!known.readable ·)

/-- What an instruction outside macro bodies adds to the known names, and whether it assigns to an
undeclared one. -/
def learn (known : Known) : Instr → Known × List Finding
  | .declare name _ => ({ known with declared := name :: known.declared }, [])
  | .assign name _ =>
    if known.declared.contains name then (known, [])
    else ({ known with assigned := name :: known.assigned }, [.assignBeforeDeclare name])
  | .funcDecl _ params => ({ known with declared := params ++ known.declared }, [])
  | _ => (known, [])

/-- The names known after an instruction, and what was found at it. -/
def declarationStep (known : Known) (i : Instr) : Known × List Finding :=
  match i with
  | .macroDecl _ => ({ known with macroDepth := known.macroDepth + 1 }, [])
  | .endMacro => ({ known with macroDepth := known.macroDepth - 1 }, [])
  | i =>
    if known.macroDepth = 0 then
      let (later, findings) := learn known i
      (later, (unknownReads known i).map .useBeforeDeclare ++ findings)
    else (known, [])

/-- The findings of a list of instructions, the first of which has the given index. -/
def undeclaredFrom (index : Nat) (known : Known) : List Instr → List Diagnostic
  | [] => []
  | i :: rest =>
    let (later, findings) := declarationStep known i
    findings.map (⟨index, ·⟩) ++ undeclaredFrom (index + 1) later rest

/-- The uses of undeclared names, in the order of the code. -/
def undeclared (code : List Instr) : List Diagnostic :=
  undeclaredFrom 0 .initial code

/-! ## Refolding -/

/-- The folded value and the finding about it, when folding changes a right-hand side. -/
def refoldValue (name : String) (value : Operand) : Option (Operand × Finding) :=
  let before := value.render
  if Operand.isNumericLiteral before.toList then none
  else if value.fold.same value then none
  else some (value.fold, .refolded name before value.fold.render)

/-- The instruction with its right-hand side folded, and the finding if that changed it. -/
def refoldInstr : Instr → Instr × List Finding
  | .declare name value =>
    match refoldValue name value with
    | some (value, finding) => (.declare name value, [finding])
    | none => (.declare name value, [])
  | .assign name value =>
    match refoldValue name value with
    | some (value, finding) => (.assign name value, [finding])
    | none => (.assign name value, [])
  | i => (i, [])

/-- Refolds a list of instructions, the first of which has the given index. -/
def refoldFrom (index : Nat) : List Instr → List Instr × List Diagnostic
  | [] => ([], [])
  | i :: rest =>
    let (first, findings) := refoldInstr i
    let (later, diagnostics) := refoldFrom (index + 1) rest
    (first :: later, findings.map (⟨index, ·⟩) ++ diagnostics)

/-- The code with every right-hand side folded, and what changed. -/
def refold (code : List Instr) : List Instr × List Diagnostic :=
  refoldFrom 0 code

end ImpMachine.Linear
