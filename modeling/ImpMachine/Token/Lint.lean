import ImpMachine.Token.Basic

/-!
# Suspicious token pairs

Two findings about neighbouring tokens, neither of which stops a compilation: a semicolon after a
semicolon, and an assignment sign after an assignment sign.
-/

namespace ImpMachine

/-- What is suspicious about a pair of neighbouring tokens. -/
inductive LintKind where
  | redundantSemicolon
  | suspiciousAssignment
  deriving DecidableEq

/-- A finding, at the place of the pair's second token. -/
structure Lint where
  kind : LintKind
  line : Nat
  col : Nat
  deriving DecidableEq

namespace Lint

/-- The finding about a pair of kinds. -/
def ofPair? : Token.Kind → Token.Kind → Option LintKind
  | .semi, .semi => some .redundantSemicolon
  | .assign, .assign => some .suspiciousAssignment
  | _, _ => none

/-- The findings about a token list, in order. -/
def check : List Token → List Lint
  | a :: b :: rest =>
    let later := check (b :: rest)
    match ofPair? a.kind b.kind with
    | some kind => ⟨kind, b.line, b.col⟩ :: later
    | none => later
  | _ => []

/-- Place and wording of a finding. -/
def message (w : Lint) : String :=
  let wording := match w.kind with
    | .redundantSemicolon => "Redundant semicolon"
    | .suspiciousAssignment => "Possible mistaken '=='"
  s!"{w.line}:{w.col}: warning: " ++ wording

end Lint

end ImpMachine
