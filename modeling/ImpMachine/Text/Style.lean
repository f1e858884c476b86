/-!
# Terminal styles

A styled piece of text is wrapped in the escape sequence of its style and a reset. A reset that
already stands inside the piece restarts the style, so the whole piece keeps its look.
-/

namespace ImpMachine.Text

/-- How a piece of terminal output is set off. -/
inductive Style where
  | green
  | yellow
  | blue
  | magenta
  | cyan
  | dimmed
  | redBold
  deriving DecidableEq

/-- The parameters of the style's escape sequence. -/
def Style.parameters : Style → String
  | .green => "32"
  | .yellow => "33"
  | .blue => "34"
  | .magenta => "35"
  | .cyan => "36"
  | .dimmed => "2"
  | .redBold => "1;31"

/-- The sequence that switches a style on. -/
def Style.start (style : Style) : List Char :=
  '\x1b' :: '[' :: style.parameters.toList ++ ['m']

/-- The sequence that switches every style off. -/
def styleReset : List Char :=
  ['\x1b', '[', '0', 'm']

/-- Writes `start` after every reset inside a piece. -/
def restartAfterResets (start : List Char) : List Char → List Char
  | '\x1b' :: '[' :: '0' :: 'm' :: rest => styleReset ++ start ++ restartAfterResets start rest
  | c :: rest => c :: restartAfterResets start rest
  | [] => []

/-- `s` in the given style. -/
def Style.paint (style : Style) (s : String) : String :=
  String.ofList (style.start ++ restartAfterResets style.start s.toList ++ styleReset)

/-- `s` in the given style, or as it is when colours are off or there is no style. -/
def paintIf (colours : Bool) (style : Option Style) (s : String) : String :=
  match colours, style with
  | true, some style => style.paint s
  | _, _ => s

end ImpMachine.Text
