import ImpMachine.Token.Basic
import ImpMachine.Decimal.Integer

/-!
# Errors at a place in the source

Lexing and preprocessing fail at a place: a line, a column and a piece of the text found there.
The cause is a closed type, and `SourceFault.message` holds the wording of each.
-/

namespace ImpMachine

/-- Nested expansions may be this deep and no deeper. -/
def maxExpansionDepth : Nat := 32

/-- A loop may be unrolled into this many copies and no more. -/
def maxCopies : Nat := 4096

/-- Why the source is refused. -/
inductive SourceFault where
  | illegalCharacter (c : Char)
  | unterminatedComment
  | unterminatedString
  | unterminatedChar
  | emptyChar
  | unknownEscape (c : Char)
  | unterminatedEscape
  | missingDirectiveName
  | unknownMacro (name : String)
  | expansionTooDeep (name : String)
  | missingMacroName
  | unterminatedMacro (name : String)
  | malformedLoop (expected : String) (got : Option Token)
  | loopBoundOutOfRange
  | unterminatedLoopBody
  | tooManyCopies (first last : Int64) (count : Nat)
  deriving DecidableEq

/-- The wording of each fault. -/
def SourceFault.message : SourceFault → String
  | .illegalCharacter c => "Illegal character '" ++ c.toString ++ "'"
  | .unterminatedComment => "unterminated block comment"
  | .unterminatedString => "unterminated string"
  | .unterminatedChar => "unterminated char literal"
  | .emptyChar => "empty or unterminated char literal"
  | .unknownEscape c => "unknown escape sequence: \\" ++ c.toString
  | .unterminatedEscape => "unterminated escape sequence"
  | .missingDirectiveName => "expected macro name after '#'"
  | .unknownMacro name => "Unknown macro: #" ++ name
  | .expansionTooDeep name =>
    s!"macro expansion too deep (limit {maxExpansionDepth}) while expanding #" ++ name
  | .missingMacroName => "expected macro name after 'macro'"
  | .unterminatedMacro name => "unterminated macro '" ++ name ++ "'"
  | .malformedLoop expected (some t) =>
    "malformed 'for': expected " ++ expected ++ ", got " ++ t.quoted
  | .malformedLoop expected none => "malformed 'for': expected " ++ expected
  | .loopBoundOutOfRange => "'for' bound out of range"
  | .unterminatedLoopBody => "unterminated 'for' body"
  | .tooManyCopies first last count =>
    "'for' range " ++ Decimal.wordText first ++ ".." ++ Decimal.wordText last
      ++ s!" unrolls to {count} copies (limit {maxCopies})"

/-- A fault, the place where it was found and the text that stands there. -/
structure SourceError where
  fault : SourceFault
  line : Nat
  col : Nat
  snippet : String
  deriving DecidableEq

namespace SourceError

/-- A fault at a token. -/
def atToken (t : Token) (fault : SourceFault) : SourceError :=
  ⟨fault, t.line, t.col, t.text⟩

/-- Place, cause and snippet on two lines. -/
def message (e : SourceError) : String :=
  s!"{e.line}:{e.col}: " ++ e.fault.message ++ "\n  near: " ++ e.snippet

end SourceError

end ImpMachine
