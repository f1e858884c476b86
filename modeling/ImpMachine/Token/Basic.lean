/-!
# Tokens

A token is a kind, a text, the place where it stands and the number of source characters it covers.
The text is the covered source, except that string and character literals hold their unescaped
contents.
-/

namespace ImpMachine

namespace Token

/-- The closed set of token kinds. A keyword has the letters `kw` in front of its name. -/
inductive Kind where
  | integer
  | float
  | str
  | char
  | ident
  | kwFunc
  | kwReturn
  | kwIf
  | kwElse
  | kwElif
  | kwWhile
  | kwFor
  | kwIn
  | kwBreak
  | kwContinue
  | kwLet
  | kwConst
  | kwTrue
  | kwFalse
  | kwNull
  | kwPrint
  | kwMacro
  | kwEndMacro
  | typeName
  | eq
  | notEq
  | ltEq
  | gtEq
  | lt
  | gt
  | and
  | or
  | not
  | assign
  | plus
  | minus
  | star
  | slash
  | percent
  | lparen
  | rparen
  | lbrace
  | rbrace
  | lbracket
  | rbracket
  | comma
  | dot
  | dotDot
  | semi
  | colon
  | arrow
  | directive
  | eof
  deriving DecidableEq

/-- The name of a kind, as token dumps show it. -/
def Kind.name : Kind → String
  | .integer => "Integer"
  | .float => "Float"
  | .str => "Str"
  | .char => "Char"
  | .ident => "Ident"
  | .kwFunc => "Func"
  | .kwReturn => "Return"
  | .kwIf => "If"
  | .kwElse => "Else"
  | .kwElif => "Elif"
  | .kwWhile => "While"
  | .kwFor => "For"
  | .kwIn => "In"
  | .kwBreak => "Break"
  | .kwContinue => "Continue"
  | .kwLet => "Let"
  | .kwConst => "Const"
  | .kwTrue => "True"
  | .kwFalse => "False"
  | .kwNull => "Null"
  | .kwPrint => "Print"
  | .kwMacro => "Macro"
  | .kwEndMacro => "EndMacro"
  | .typeName => "TypeName"
  | .eq => "Eq"
  | .notEq => "NotEq"
  | .ltEq => "LtEq"
  | .gtEq => "GtEq"
  | .lt => "Lt"
  | .gt => "Gt"
  | .and => "And"
  | .or => "Or"
  | .not => "Not"
  | .assign => "Assign"
  | .plus => "Plus"
  | .minus => "Minus"
  | .star => "Star"
  | .slash => "Slash"
  | .percent => "Percent"
  | .lparen => "LParen"
  | .rparen => "RParen"
  | .lbrace => "LBrace"
  | .rbrace => "RBrace"
  | .lbracket => "LBracket"
  | .rbracket => "RBracket"
  | .comma => "Comma"
  | .dot => "Dot"
  | .dotDot => "DotDot"
  | .semi => "Semi"
  | .colon => "Colon"
  | .arrow => "Arrow"
  | .directive => "MacroDirective"
  | .eof => "Eof"

/-- What an error message calls a token of this kind. -/
def Kind.describe : Kind → String
  | .integer => "integer"
  | .float => "float"
  | .str => "string"
  | .char => "char"
  | .ident => "identifier"
  | .kwFunc => "'func'"
  | .kwReturn => "'return'"
  | .kwIf => "'if'"
  | .kwElse => "'else'"
  | .kwElif => "'elif'"
  | .kwWhile => "'while'"
  | .kwFor => "'for'"
  | .kwIn => "'in'"
  | .kwBreak => "'break'"
  | .kwContinue => "'continue'"
  | .kwLet => "'let'"
  | .kwConst => "'const'"
  | .kwTrue => "'true'"
  | .kwFalse => "'false'"
  | .kwNull => "'null'"
  | .kwPrint => "'print'"
  | .kwMacro => "'macro'"
  | .kwEndMacro => "'endmacro'"
  | .typeName => "type name"
  | .eq => "'=='"
  | .notEq => "'!='"
  | .ltEq => "'<='"
  | .gtEq => "'>='"
  | .lt => "'<'"
  | .gt => "'>'"
  | .and => "'&&'"
  | .or => "'||'"
  | .not => "'!'"
  | .assign => "'='"
  | .plus => "'+'"
  | .minus => "'-'"
  | .star => "'*'"
  | .slash => "'/'"
  | .percent => "'%'"
  | .lparen => "'('"
  | .rparen => "')'"
  | .lbrace => "'\x7b'"
  | .rbrace => "'\x7d'"
  | .lbracket => "'['"
  | .rbracket => "']'"
  | .comma => "','"
  | .dot => "'.'"
  | .dotDot => "'..'"
  | .semi => "';'"
  | .colon => "':'"
  | .arrow => "'->'"
  | .directive => "macro directive"
  | .eof => "end of input"

/-- The kind of a reserved word. The match is exact, so `printer` is no keyword. -/
def Kind.ofKeyword? (word : String) : Option Kind :=
  match word with
  | "func" => some .kwFunc
  | "return" => some .kwReturn
  | "if" => some .kwIf
  | "else" => some .kwElse
  | "elif" => some .kwElif
  | "while" => some .kwWhile
  | "for" => some .kwFor
  | "in" => some .kwIn
  | "break" => some .kwBreak
  | "continue" => some .kwContinue
  | "let" => some .kwLet
  | "const" => some .kwConst
  | "true" => some .kwTrue
  | "false" => some .kwFalse
  | "null" => some .kwNull
  | "print" => some .kwPrint
  | "macro" => some .kwMacro
  | "endmacro" => some .kwEndMacro
  | "int" | "float" | "bool" | "char" | "string" | "void" | "any" => some .typeName
  | _ => none

/-- A kind that only reserved words have. -/
def Kind.isKeyword : Kind → Bool
  | .kwFunc => true
  | .kwReturn => true
  | .kwIf => true
  | .kwElse => true
  | .kwElif => true
  | .kwWhile => true
  | .kwFor => true
  | .kwIn => true
  | .kwBreak => true
  | .kwContinue => true
  | .kwLet => true
  | .kwConst => true
  | .kwTrue => true
  | .kwFalse => true
  | .kwNull => true
  | .kwPrint => true
  | .kwMacro => true
  | .kwEndMacro => true
  | .typeName => true
  | _ => false

end Token

/-- A lexical token. Lines and columns count from one, and columns and lengths are in
characters. -/
structure Token where
  kind : Token.Kind
  text : String
  line : Nat
  col : Nat
  len : Nat
  deriving DecidableEq

namespace Token

/-- A token as long as its text. -/
def ofText (kind : Kind) (text : String) (line col : Nat) : Token :=
  ⟨kind, text, line, col, text.length⟩

/-- The end marker of a token stream. -/
def endOfInput (line col : Nat) : Token :=
  ⟨.eof, "", line, col, 0⟩

/-- The token as an error message quotes it. -/
def quoted (t : Token) : String :=
  match t.kind with
  | .eof => "end of input"
  | .str => "\"" ++ t.text ++ "\""
  | _ => "'" ++ t.text ++ "'"

end Token

end ImpMachine
