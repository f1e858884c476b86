import ImpMachine.Decimal.Real
import ImpMachine.Text.Escape

/-!
# Programs as trees

The abstract form of a program: literals, operators, expressions and statements. An `if` without an
`else` and one with an `else` are two constructors, so a branch is always a list of statements.
-/

namespace ImpMachine

/-- A literal value of the source language. -/
inductive Literal where
  | integer (n : Int64)
  | float (x : Float)
  | string (s : String)
  | char (c : Char)
  | bool (b : Bool)
  | null

/-- The literal as the language writes it. -/
def Literal.text : Literal → String
  | .integer n => Decimal.wordText n
  | .float x => Decimal.realText x
  | .string s => "\"" ++ Text.plain s ++ "\""
  | .char c => "'" ++ String.ofList (Text.plainEscape c) ++ "'"
  | .bool true => "true"
  | .bool false => "false"
  | .null => "null"

/-- Arithmetic and comparison operators. -/
inductive BinaryOp where
  | add
  | sub
  | mul
  | div
  | mod
  | eq
  | notEq
  | lt
  | gt
  | ltEq
  | gtEq
  deriving DecidableEq

namespace BinaryOp

/-- Every operator once. -/
def all : List BinaryOp :=
  [.add, .sub, .mul, .div, .mod, .eq, .notEq, .lt, .gt, .ltEq, .gtEq]

/-- The operator sign. -/
def symbol : BinaryOp → String
  | .add => "+"
  | .sub => "-"
  | .mul => "*"
  | .div => "/"
  | .mod => "%"
  | .eq => "=="
  | .notEq => "!="
  | .lt => "<"
  | .gt => ">"
  | .ltEq => "<="
  | .gtEq => ">="

/-- The name that a tree outline shows. -/
def name : BinaryOp → String
  | .add => "Add"
  | .sub => "Sub"
  | .mul => "Mul"
  | .div => "Div"
  | .mod => "Mod"
  | .eq => "Eq"
  | .notEq => "NotEq"
  | .lt => "Lt"
  | .gt => "Gt"
  | .ltEq => "LtEq"
  | .gtEq => "GtEq"

/-- The operator compares: its result is a truth value. -/
def isComparison : BinaryOp → Bool
  | .add | .sub | .mul | .div | .mod => false
  | _ => true

/-- The operator with the given sign. -/
def ofSymbol? (s : String) : Option BinaryOp :=
  all.find? (·.symbol == s)

end BinaryOp

/-- Operators with one operand. -/
inductive UnaryOp where
  | neg
  | not
  deriving DecidableEq

namespace UnaryOp

/-- The operator sign. -/
def symbol : UnaryOp → String
  | .neg => "-"
  | .not => "!"

/-- The name that a tree outline shows. -/
def name : UnaryOp → String
  | .neg => "Neg"
  | .not => "Not"

end UnaryOp

/-- Logical connectives. Both sides are always evaluated. -/
inductive LogicalOp where
  | and
  | or
  deriving DecidableEq

namespace LogicalOp

/-- The operator sign. -/
def symbol : LogicalOp → String
  | .and => "&&"
  | .or => "||"

/-- The name that a tree outline shows. -/
def name : LogicalOp → String
  | .and => "And"
  | .or => "Or"

end LogicalOp

/-- Expressions. An assignment is an expression whose value is the value assigned. -/
inductive Expr where
  | literal (value : Literal)
  | var (name : String)
  | binary (op : BinaryOp) (left right : Expr)
  | unary (op : UnaryOp) (operand : Expr)
  | logical (op : LogicalOp) (left right : Expr)
  | call (callee : String) (args : List Expr)
  | assign (name : String) (value : Expr)

/-- Statements. -/
inductive Stmt where
  | varDecl (name : String) (init : Expr)
  | print (value : Expr)
  | ret (value : Expr)
  | ifThen (cond : Expr) (body : List Stmt)
  | ifElse (cond : Expr) (body alternative : List Stmt)
  | while (cond : Expr) (body : List Stmt)
  | block (body : List Stmt)
  | funcDecl (name : String) (params : List String) (body : List Stmt)
  | macroDecl (name : String) (body : List Stmt)
  | expr (value : Expr)

end ImpMachine
