import ImpMachine.Text.Blank
import ImpMachine.Token.SourceError

/-!
# From source text to tokens

The source is cut from left to right into pieces: gaps, which are blanks and comments, and lexemes,
which become tokens. `scan` decides the first piece of a text and how long it is; `lexFrom` walks
over the whole text, keeps the position and stops at the first text that starts with no piece.
-/

namespace ImpMachine

/-- A place in the source. Lines and columns count from one. -/
structure Position where
  line : Nat
  col : Nat
  deriving DecidableEq

namespace Position

/-- The first place of every source. -/
def start : Position := ⟨1, 1⟩

/-- The place after one character: a line feed starts a new line. -/
def next (p : Position) (c : Char) : Position :=
  if c = '\n' then ⟨p.line + 1, 1⟩ else ⟨p.line, p.col + 1⟩

/-- The place after a text. -/
def after (p : Position) (cs : List Char) : Position :=
  cs.foldl next p

end Position

namespace Lexer

/-- The longest snippet an error shows. -/
def snippetLength : Nat := 20

/-- What an error shows of the text at its place: the start of the line's rest. -/
def snippet (cs : List Char) : String :=
  String.ofList ((cs.takeWhile (· != '\n')).take snippetLength)

/-- A fault found `offset` characters into the text being scanned. -/
structure Misread where
  fault : SourceFault
  offset : Nat
  deriving DecidableEq

/-- The first piece of a text. -/
inductive Piece where
  | gap (len : Nat)
  | lexeme (kind : Token.Kind) (text : List Char) (len : Nat)
  deriving DecidableEq

/-- The first character of a name. -/
def isNameStart (c : Char) : Bool :=
  c.isAlpha || c == '_'

/-- A later character of a name. -/
def isNameChar (c : Char) : Bool :=
  c.isAlphanum || c == '_'

/-- The length of a block comment's rest, its closing mark included. -/
def commentLength : List Char → Option Nat
  | '*' :: '/' :: _ => some 2
  | _ :: rest => (commentLength rest).map (· + 1)
  | [] => none

/-- The character that a backslash followed by `c` stands for inside the quotes `quote`. -/
def unescape (quote c : Char) : Except SourceFault Char :=
  match c with
  | 'n' => .ok '\n'
  | 't' => .ok '\t'
  | 'r' => .ok '\r'
  | '0' => .ok '\x00'
  | '\\' => .ok '\\'
  | _ => if c = quote then .ok quote else .error (.unknownEscape c)

/-- Reads a string's contents up to its closing quote. `offset` is the distance from the opening
quote; the result is the contents and the length of the whole literal. -/
def scanString (offset : Nat) : List Char → Except Misread (List Char × Nat)
  | [] => .error ⟨.unterminatedString, 0⟩
  | '"' :: _ => .ok ([], offset + 1)
  | ['\\'] => .error ⟨.unterminatedEscape, offset⟩
  | '\\' :: c :: rest =>
    match unescape '"' c with
    | .error fault => .error ⟨fault, offset⟩
    | .ok value => (scanString (offset + 2) rest).map fun (text, len) => (value :: text, len)
  | c :: rest =>
    if c = '\n' then .error ⟨.unterminatedString, 0⟩
    else (scanString (offset + 1) rest).map fun (text, len) => (c :: text, len)

/-- Reads a character literal after its opening quote; the result is its value and the length of
the whole literal. -/
def scanChar : List Char → Except Misread (Char × Nat)
  | [] => .error ⟨.emptyChar, 0⟩
  | ['\\'] => .error ⟨.unterminatedEscape, 1⟩
  | '\\' :: c :: rest =>
    match unescape '\'' c with
    | .error fault => .error ⟨fault, 1⟩
    | .ok value =>
      if rest.head? = some '\'' then .ok (value, 4) else .error ⟨.unterminatedChar, 0⟩
  | c :: rest =>
    if c = '\'' || c = '\n' then .error ⟨.emptyChar, 0⟩
    else if rest.head? = some '\'' then .ok (c, 3)
    else .error ⟨.unterminatedChar, 0⟩

/-- Digits, and a point with more digits if both follow. A point without a digit after it is left
for the next token, so `1..3` is three tokens. -/
def scanNumber (cs : List Char) : Piece :=
  let whole := cs.takeWhile Char.isDigit
  match cs.dropWhile Char.isDigit with
  | '.' :: d :: rest =>
    if d.isDigit then
      let text := whole ++ '.' :: d :: rest.takeWhile Char.isDigit
      .lexeme .float text text.length
    else .lexeme .integer whole whole.length
  | _ => .lexeme .integer whole whole.length

/-- A name or a keyword. -/
def scanWord (cs : List Char) : Piece :=
  let word := cs.takeWhile isNameChar
  .lexeme ((Token.Kind.ofKeyword? (String.ofList word)).getD .ident) word word.length

/-- A directive, whose text keeps the `#`. -/
def scanDirective (rest : List Char) : Except Misread Piece :=
  if rest.head?.any isNameStart then
    let word := rest.takeWhile isNameChar
    .ok (.lexeme .directive ('#' :: word) (word.length + 1))
  else .error ⟨.missingDirectiveName, 0⟩

/-- The kind of a two-character operator. -/
def pairKind? : Char → Char → Option Token.Kind
  | '=', '=' => some .eq
  | '!', '=' => some .notEq
  | '<', '=' => some .ltEq
  | '>', '=' => some .gtEq
  | '&', '&' => some .and
  | '|', '|' => some .or
  | '-', '>' => some .arrow
  | '.', '.' => some .dotDot
  | _, _ => none

/-- The kind of a one-character operator or delimiter. -/
def singleKind? : Char → Option Token.Kind
  | '!' => some .not
  | '=' => some .assign
  | '<' => some .lt
  | '>' => some .gt
  | '+' => some .plus
  | '-' => some .minus
  | '*' => some .star
  | '/' => some .slash
  | '%' => some .percent
  | '(' => some .lparen
  | ')' => some .rparen
  | '\x7b' => some .lbrace
  | '\x7d' => some .rbrace
  | '[' => some .lbracket
  | ']' => some .rbracket
  | ',' => some .comma
  | '.' => some .dot
  | ';' => some .semi
  | ':' => some .colon
  | _ => none

/-- The longest operator that the text starts with. -/
def scanOperator (c : Char) (rest : List Char) : Except Misread Piece :=
  match rest.head?.bind (pairKind? c), rest with
  | some kind, d :: _ => .ok (.lexeme kind [c, d] 2)
  | _, _ =>
    match singleKind? c with
    | some kind => .ok (.lexeme kind [c] 1)
    | none => .error ⟨.illegalCharacter c, 0⟩

/-- A comment, if the text starts with one. -/
def scanComment? (c : Char) (rest : List Char) : Option (Except Misread Piece) :=
  match c, rest with
  | '/', '/' :: more => some (.ok (.gap (2 + (more.takeWhile (· != '\n')).length)))
  | '/', '*' :: more =>
    match commentLength more with
    | some len => some (.ok (.gap (2 + len)))
    | none => some (.error ⟨.unterminatedComment, 0⟩)
  | _, _ => none

/-- The first piece of the text `c :: rest`. -/
def scan (c : Char) (rest : List Char) : Except Misread Piece :=
  if Text.isBlank c then .ok (.gap 1)
  else match scanComment? c rest with
    | some result => result
    | none =>
      if c.isDigit then .ok (scanNumber (c :: rest))
      else if isNameStart c then .ok (scanWord (c :: rest))
      else if c = '"' then (scanString 1 rest).map fun (text, len) => .lexeme .str text len
      else if c = '\'' then (scanChar rest).map fun (value, len) => .lexeme .char [value] len
      else if c = '#' then scanDirective rest
      else scanOperator c rest

/-- The error for a fault in the text `cs` that starts at `p`. -/
def misreadError (p : Position) (cs : List Char) (m : Misread) : SourceError :=
  let place := p.after (cs.take m.offset)
  ⟨m.fault, place.line, place.col, snippet (cs.drop m.offset)⟩

/-- The tokens of a text that starts at `p`, up to the end marker or the first error. -/
def lexFrom (p : Position) : List Char → List Token × Option SourceError
  | [] => ([Token.endOfInput p.line p.col], none)
  | c :: rest =>
    match scan c rest with
    | .error m => ([], some (misreadError p (c :: rest) m))
    | .ok (.gap len) => lexFrom (p.after ((c :: rest).take len)) (rest.drop (len - 1))
    | .ok (.lexeme kind text len) =>
      let token : Token := ⟨kind, String.ofList text, p.line, p.col, len⟩
      let (tokens, error?) := lexFrom (p.after ((c :: rest).take len)) (rest.drop (len - 1))
      (token :: tokens, error?)
termination_by cs => cs.length
decreasing_by all_goals simp only [List.length_drop, List.length_cons]; omega

end Lexer

/-- The tokens found before the first error, and that error if there is one. -/
def lex (source : String) : List Token × Option SourceError :=
  Lexer.lexFrom .start source.toList

/-- All tokens of a source, the end marker last. -/
def tokenize (source : String) : Except SourceError (List Token) :=
  match lex source with
  | (_, some error) => .error error
  | (tokens, none) => .ok tokens

end ImpMachine
