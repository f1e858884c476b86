import ImpMachine.Token.Basic

/-!
# Parse errors

A parse fails at a token: another one was expected there, or the token is an assignment sign whose
left side cannot be assigned to.
-/

namespace ImpMachine

/-- Why a token list is no program. -/
inductive ParseError where
  | unexpected (expected : String) (got : Token)
  | invalidTarget (equals : Token)
  deriving DecidableEq

namespace ParseError

/-- The token at which the parse failed. -/
def token : ParseError → Token
  | .unexpected _ got => got
  | .invalidTarget equals => equals

/-- Place and cause. -/
def message (e : ParseError) : String :=
  let place := s!"{e.token.line}:{e.token.col}: "
  match e with
  | .unexpected expected got => place ++ "expected " ++ expected ++ ", got " ++ got.quoted
  | .invalidTarget _ => place ++ "invalid assignment target"

end ParseError

end ImpMachine
