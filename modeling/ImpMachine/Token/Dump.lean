import ImpMachine.Text.Escape
import ImpMachine.Text.Pad
import ImpMachine.Text.Style
import ImpMachine.Token.Basic

/-!
# Token dumps

One line for each token: its place, the class of its kind in a column of eight, and the token
itself, either quoted as in error messages or as its kind and its text in shown form.
-/

namespace ImpMachine.Token

/-- The class of a kind, as the second column of a dump names it. -/
def Kind.className : Kind → String
  | .eof => "EOF"
  | .integer | .float => "NUMBER"
  | .str => "STRING"
  | .char => "CHAR"
  | .kwTrue | .kwFalse | .kwNull => "LITERAL"
  | .ident => "IDENT"
  | .directive => "MACRO"
  | .lparen | .rparen | .lbrace | .rbrace | .lbracket | .rbracket => "DELIM"
  | .comma | .dot | .dotDot | .semi | .colon | .arrow => "PUNCT"
  | .plus | .minus | .star | .slash | .percent | .assign => "OP"
  | .eq | .notEq | .lt | .ltEq | .gt | .gtEq => "CMP"
  | .and | .or | .not => "LOGIC"
  | _ => "KEYWORD"

/-- The style of a kind, if it has one. -/
def Kind.style? : Kind → Option Text.Style
  | .eof => some .dimmed
  | .str | .char => some .green
  | .integer | .float | .kwTrue | .kwFalse | .kwNull => some .cyan
  | .ident => some .yellow
  | .directive => some .blue
  | .plus | .minus | .star | .slash | .percent | .assign
  | .eq | .notEq | .lt | .ltEq | .gt | .gtEq | .and | .or | .not => some .magenta
  | _ => none

/-- How a dump looks. -/
structure DumpFormat where
  /-- Quote tokens as error messages do, instead of showing kind and text. -/
  pretty : Bool
  colours : Bool
  deriving DecidableEq

/-- The line of one token. -/
def dumpLine (format : DumpFormat) (t : Token) : String :=
  let body :=
    if format.pretty then t.quoted else t.kind.name ++ " " ++ Text.shownString t.text
  let paint := Text.paintIf format.colours t.kind.style?
  "[" ++ Text.zeroPadded 2 t.line ++ ":" ++ Text.zeroPadded 2 t.col ++ "] "
    ++ paint (Text.padRight 8 t.kind.className) ++ " " ++ paint body ++ "\n"

/-- The lines of a token list. -/
def dump (format : DumpFormat) (tokens : List Token) : String :=
  String.join (tokens.map (dumpLine format))

end ImpMachine.Token
