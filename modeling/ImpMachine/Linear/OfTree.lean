import ImpMachine.Linear.Basic

/-!
# From trees to linear code

Expressions become operands. An assignment inside an expression is taken out: it becomes an
instruction of its own in front of the instruction that uses the expression, and the assigned
variable stands in its place. The assignments taken out of a loop condition are repeated at the end
of the loop body, so that they run before every test.
-/

namespace ImpMachine.Linear

/-- The constant of a literal. Characters are code points, truth values one and zero, and null is
zero. -/
def ofLiteral : Literal → Operand
  | .integer n => .int n
  | .float x => .number (.float x)
  | .string s => .text s
  | .char c => .int (Int64.ofNat c.toNat)
  | .bool b => .int (if b then 1 else 0)
  | .null => .int 0

mutual

/-- The assignments taken out of an expression and the operand that is left, folded. -/
def flatten : Expr → List Instr × Operand
  | .literal value => ([], ofLiteral value)
  | .var name => ([], .var name)
  | .binary op left right =>
    let (first, lhs) := flatten left
    let (second, rhs) := flatten right
    (first ++ second, .mkBinary op lhs rhs)
  | .unary op operand =>
    let (hoisted, value) := flatten operand
    (hoisted, .mkUnary op value)
  | .logical op left right =>
    let (first, lhs) := flatten left
    let (second, rhs) := flatten right
    (first ++ second, .logical op lhs rhs)
  | .call callee args =>
    let (hoisted, values) := flattenAll args
    (hoisted, .call callee values)
  | .assign name value =>
    let (hoisted, operand) := flatten value
    (hoisted ++ [.assign name operand], .var name)

/-- The assignments taken out of several expressions, and the operands left. -/
def flattenAll : List Expr → List Instr × List Operand
  | [] => ([], [])
  | e :: rest =>
    let (first, value) := flatten e
    let (second, values) := flattenAll rest
    (first ++ second, value :: values)

end

/-- The code of an expression statement. -/
def ofExpression : Expr → List Instr
  | .assign name value => (flatten (.assign name value)).1
  | .call callee args =>
    let (hoisted, values) := flattenAll args
    hoisted ++ [.call callee values]
  | e =>
    let (hoisted, value) := flatten e
    hoisted ++ [.expr value]

mutual

/-- The code of a statement. -/
def ofStmt : Stmt → List Instr
  | .varDecl name init =>
    let (hoisted, value) := flatten init
    hoisted ++ [.declare name value]
  | .print e =>
    let (hoisted, value) := flatten e
    hoisted ++ [.print value]
  | .ret e =>
    let (hoisted, value) := flatten e
    hoisted ++ [.ret value]
  | .ifThen cond body =>
    let (hoisted, value) := flatten cond
    hoisted ++ .ifBegin value :: ofStmts body ++ [.endIf]
  | .ifElse cond body alternative =>
    let (hoisted, value) := flatten cond
    hoisted ++ .ifBegin value :: ofStmts body ++ .elseMark :: ofStmts alternative ++ [.endIf]
  | .while cond body =>
    let (hoisted, value) := flatten cond
    hoisted ++ .whileBegin value :: ofStmts body ++ hoisted ++ [.endWhile]
  | .block body => .blockStart :: ofStmts body ++ [.blockEnd]
  | .funcDecl name params body => .funcDecl name params :: ofStmts body ++ [.endFunc]
  | .macroDecl name body => .macroDecl name :: ofStmts body ++ [.endMacro]
  | .expr e => ofExpression e

/-- The code of several statements. -/
def ofStmts : List Stmt → List Instr
  | [] => []
  | s :: rest => ofStmt s ++ ofStmts rest

end

end ImpMachine.Linear
