import ImpMachine.Text.Visible

/-!
# Escaped text

Two ways to write a text between quotes. The plain form keeps printable ASCII only and is what the
language itself shows for its string and character values. The shown form keeps every visible
character and is what a token or tree dump uses.
-/

namespace ImpMachine.Text

/-- The code point of `c` as a braced hexadecimal escape. -/
def codePointEscape (c : Char) : List Char :=
  ['\\', 'u', '\x7b'] ++ Nat.toDigits 16 c.toNat ++ ['\x7d']

/-- Plain form of one character: printable ASCII stays, except that both quotes and the backslash
are escaped. -/
def plainEscape (c : Char) : List Char :=
  match c with
  | '\t' => ['\\', 't']
  | '\r' => ['\\', 'r']
  | '\n' => ['\\', 'n']
  | '\'' => ['\\', '\'']
  | '"' => ['\\', '"']
  | '\\' => ['\\', '\\']
  | _ => if 0x20 ≤ c.toNat && c.toNat < 0x7F then [c] else codePointEscape c

/-- Plain form of a text. -/
def plain (s : String) : String :=
  String.ofList (s.toList.flatMap plainEscape)

/-- Shown form of one character between the quotes `quote`: visible characters stay, except that
the quote and the backslash are escaped. -/
def shownEscape (quote c : Char) : List Char :=
  match c with
  | '\x00' => ['\\', '0']
  | '\t' => ['\\', 't']
  | '\r' => ['\\', 'r']
  | '\n' => ['\\', 'n']
  | '\\' => ['\\', '\\']
  | _ =>
    if c == quote then ['\\', quote]
    else if isVisible c then [c]
    else codePointEscape c

/-- A text in double quotes, in shown form. -/
def shownString (s : String) : String :=
  String.ofList ('"' :: s.toList.flatMap (shownEscape '"') ++ ['"'])

/-- A character in single quotes, in shown form. -/
def shownChar (c : Char) : String :=
  String.ofList ('\'' :: shownEscape '\'' c ++ ['\''])

end ImpMachine.Text
