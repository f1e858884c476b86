import ImpMachine.Tree.Basic

/-!
# Tree outlines

A tree printed for inspection, one part to a line: every node shows its name and its parts, each
part is indented by four spaces below its node and ends in a comma.
-/

namespace ImpMachine

/-- The lines of a printed part, without indentation of their own. -/
abbrev Outline := List String

namespace Outline

/-- A part that fits on one line. -/
def atom (text : String) : Outline := [text]

/-- The part with a comma after its last line. -/
def closed : Outline → Outline
  | [] => []
  | [line] => [line ++ ","]
  | line :: rest => line :: closed rest

/-- Parts below an opening line and above a closing line. -/
def group (opening closing : String) (parts : List Outline) : Outline :=
  opening :: (parts.flatMap closed).map ("    " ++ ·) ++ [closing]

/-- A node with parts that have no names. -/
def node (name : String) (parts : List Outline) : Outline :=
  group (name ++ "(") ")" parts

/-- A node with named parts. -/
def record (name : String) (parts : List Outline) : Outline :=
  group (name ++ " \x7b") "\x7d" parts

/-- A list, on one line when it is empty. -/
def list (parts : List Outline) : Outline :=
  if parts.isEmpty then ["[]"] else group "[" "]" parts

/-- A part with its name in front. -/
def field (name : String) : Outline → Outline
  | [] => []
  | line :: rest => (name ++ ": " ++ line) :: rest

/-- A name or other text in quotes. -/
def quoted (s : String) : Outline := atom (Text.shownString s)

/-- The lines as one text. -/
def render (lines : Outline) : String :=
  "\n".intercalate lines

end Outline

open Outline

/-- The outline of a literal. -/
def Literal.outline : Literal → Outline
  | .integer n => node "Integer" [atom (Decimal.wordText n)]
  | .float x => node "Float" [atom (Decimal.realDetail x)]
  | .string s => node "String" [quoted s]
  | .char c => node "Char" [atom (Text.shownChar c)]
  | .bool b => node "Bool" [atom (if b then "true" else "false")]
  | .null => atom "Null"

mutual

/-- The outline of an expression. -/
def Expr.outline : Expr → Outline
  | .literal value => node "Literal" [value.outline]
  | .var name => node "Variable" [quoted name]
  | .binary op left right =>
    record "Binary"
      [field "op" (atom op.name), field "left" left.outline, field "right" right.outline]
  | .unary op operand =>
    record "Unary" [field "op" (atom op.name), field "operand" operand.outline]
  | .logical op left right =>
    record "Logical"
      [field "op" (atom op.name), field "left" left.outline, field "right" right.outline]
  | .call callee args =>
    record "Call" [field "callee" (quoted callee), field "args" (list (Expr.outlines args))]
  | .assign name value =>
    record "Assign" [field "name" (quoted name), field "value" value.outline]

/-- The outlines of several expressions. -/
def Expr.outlines : List Expr → List Outline
  | [] => []
  | e :: rest => e.outline :: Expr.outlines rest

end

mutual

/-- The outline of a statement. -/
def Stmt.outline : Stmt → Outline
  | .varDecl name init =>
    record "VarDecl" [field "name" (quoted name), field "init" init.outline]
  | .print value => node "Print" [value.outline]
  | .ret value => node "Return" [value.outline]
  | .ifThen cond body =>
    record "If" [field "cond" cond.outline, field "then_branch" (list (Stmt.outlines body)),
      field "else_branch" (atom "None")]
  | .ifElse cond body alternative =>
    record "If" [field "cond" cond.outline, field "then_branch" (list (Stmt.outlines body)),
      field "else_branch" (node "Some" [list (Stmt.outlines alternative)])]
  | .while cond body =>
    record "While" [field "cond" cond.outline, field "body" (list (Stmt.outlines body))]
  | .block body => node "Block" [list (Stmt.outlines body)]
  | .funcDecl name params body =>
    record "FuncDecl" [field "name" (quoted name), field "params" (list (params.map quoted)),
      field "body" (list (Stmt.outlines body))]
  | .macroDecl name body =>
    record "MacroDecl" [field "name" (quoted name), field "body" (list (Stmt.outlines body))]
  | .expr value => node "Expr" [value.outline]

/-- The outlines of several statements. -/
def Stmt.outlines : List Stmt → List Outline
  | [] => []
  | s :: rest => s.outline :: Stmt.outlines rest

end

/-- The outline of a whole program. -/
def outlineProgram (program : List Stmt) : String :=
  (list (Stmt.outlines program)).render

end ImpMachine
