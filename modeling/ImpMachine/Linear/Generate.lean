import ImpMachine.Linear.Diagnostic
import ImpMachine.Linear.OfTree

/-!
# Checked linear code of a program

The code of a tree, refolded, together with everything found about it.
-/

namespace ImpMachine.Linear

/-- Linear code and the findings about it. -/
structure Generated where
  code : List Instr
  diagnostics : List Diagnostic

/-- The linear code of a program. Undeclared names are reported first, then what folding
changed. -/
def generate (program : List Stmt) : Generated :=
  let code := ofStmts program
  let (folded, changes) := refold code
  ⟨folded, undeclared code ++ changes⟩

end ImpMachine.Linear
