import ImpMachine.Operand.Number
import ImpMachine.Text.DecimalDigit

/-!
# Operands

The values that linear instructions work on: expression trees without assignments. Building a node
folds it when its parts are numeric constants, except that the logical operators are never folded.
`fold` does this again for a whole tree.
-/

namespace ImpMachine

/-- An operand of a linear instruction. -/
inductive Operand where
  | number (n : Number)
  | text (s : String)
  | var (name : String)
  | binary (op : BinaryOp) (lhs rhs : Operand)
  | unary (op : UnaryOp) (operand : Operand)
  | logical (op : LogicalOp) (lhs rhs : Operand)
  | call (callee : String) (args : List Operand)

namespace Operand

/-- Induction over operands, for a call over its arguments. -/
@[induction_eliminator]
theorem induction {motive : Operand → Prop} (number : ∀ n, motive (.number n))
    (text : ∀ s, motive (.text s)) (var : ∀ name, motive (.var name))
    (binary : ∀ op lhs rhs, motive lhs → motive rhs → motive (.binary op lhs rhs))
    (unary : ∀ op operand, motive operand → motive (.unary op operand))
    (logical : ∀ op lhs rhs, motive lhs → motive rhs → motive (.logical op lhs rhs))
    (call : ∀ callee args, (∀ a ∈ args, motive a) → motive (.call callee args)) (e : Operand) :
    motive e :=
  @Operand.rec motive (fun args => ∀ a ∈ args, motive a) number text var binary unary logical call
    (fun _ h => (List.not_mem_nil h).elim)
    (fun _ _ ha hrest => List.forall_mem_cons.2 ⟨ha, hrest⟩) e

/-- A constant word. -/
def int (n : Int64) : Operand := .number (.int n)

/-- The constant that the operand is, if it is one. -/
def number? : Operand → Option Number
  | .number n => some n
  | _ => none

/-- `lhs op rhs`, folded when both sides are constants. -/
def mkBinary (op : BinaryOp) (lhs rhs : Operand) : Operand :=
  match lhs, rhs with
  | .number a, .number b => .number (a.apply op b)
  | lhs, rhs => .binary op lhs rhs

/-- `op operand`. Only the negation of a constant is folded. -/
def mkUnary (op : UnaryOp) (operand : Operand) : Operand :=
  match op, operand with
  | .neg, .number n => .number n.negate
  | op, operand => .unary op operand

/-! ## Folding -/

mutual

/-- Folds every node from the leaves upwards. -/
def fold : Operand → Operand
  | .number n => .number n
  | .text s => .text s
  | .var name => .var name
  | .binary op lhs rhs => mkBinary op lhs.fold rhs.fold
  | .unary op operand => mkUnary op operand.fold
  | .logical op lhs rhs => .logical op lhs.fold rhs.fold
  | .call callee args => .call callee (foldAll args)

/-- Folds every operand of a list. -/
def foldAll : List Operand → List Operand
  | [] => []
  | a :: rest => a.fold :: foldAll rest

end

/-! ## What an operand mentions -/

mutual

/-- The variables read, in order of evaluation, one entry for each occurrence. -/
def reads : Operand → List String
  | .number _ | .text _ => []
  | .var name => [name]
  | .binary _ lhs rhs | .logical _ lhs rhs => lhs.reads ++ rhs.reads
  | .unary _ operand => operand.reads
  | .call _ args => readsAll args

/-- The variables read by every operand of a list. -/
def readsAll : List Operand → List String
  | [] => []
  | a :: rest => a.reads ++ readsAll rest

end

mutual

/-- The functions called, a call before the calls in its arguments. -/
def calls : Operand → List String
  | .number _ | .text _ | .var _ => []
  | .binary _ lhs rhs | .logical _ lhs rhs => lhs.calls ++ rhs.calls
  | .unary _ operand => operand.calls
  | .call callee args => callee :: callsAll args

/-- The functions called by every operand of a list. -/
def callsAll : List Operand → List String
  | [] => []
  | a :: rest => a.calls ++ callsAll rest

end

theorem readsAll_eq_flatMap (args : List Operand) : readsAll args = args.flatMap reads := by
  induction args with
  | nil => rfl
  | cons a args ih => rw [readsAll, ih, List.flatMap_cons]

theorem callsAll_eq_flatMap (args : List Operand) : callsAll args = args.flatMap calls := by
  induction args with
  | nil => rfl
  | cons a args ih => rw [callsAll, ih, List.flatMap_cons]

/-! ## Comparison -/

mutual

/-- Equality as the language has it: equal shape, and constants compared by `Number.same`. -/
def same : Operand → Operand → Bool
  | .number a, .number b => a.same b
  | .text a, .text b => a == b
  | .var a, .var b => a == b
  | .binary op a b, .binary op' a' b' => op == op' && a.same a' && b.same b'
  | .unary op a, .unary op' a' => op == op' && a.same a'
  | .logical op a b, .logical op' a' b' => op == op' && a.same a' && b.same b'
  | .call f args, .call f' args' => f == f' && sameAll args args'
  | _, _ => false

/-- Equality of two operand lists. -/
def sameAll : List Operand → List Operand → Bool
  | [], [] => true
  | a :: rest, b :: rest' => a.same b && sameAll rest rest'
  | _, _ => false

end

/-! ## Text -/

mutual

/-- The operand as listings write it. -/
def render : Operand → String
  | .number n => n.text
  | .text s => "\"" ++ Text.plain s ++ "\""
  | .var name => name
  | .binary op lhs rhs => "(" ++ lhs.render ++ " " ++ op.symbol ++ " " ++ rhs.render ++ ")"
  | .unary op operand => "(" ++ op.symbol ++ " " ++ operand.render ++ ")"
  | .logical op lhs rhs => "(" ++ lhs.render ++ " " ++ op.symbol ++ " " ++ rhs.render ++ ")"
  | .call callee args => callee ++ "(" ++ ", ".intercalate (renderAll args) ++ ")"

/-- The texts of several operands. -/
def renderAll : List Operand → List String
  | [] => []
  | a :: rest => a.render :: renderAll rest

end

/-- Digits of any script, at least one. -/
def isDigits (cs : List Char) : Bool :=
  !cs.isEmpty && cs.all Text.isDecimalDigit

/-- The text is an optional minus sign, digits, and possibly a point with more digits. -/
def isNumericLiteral (cs : List Char) : Bool :=
  let body := match cs with
    | '-' :: rest => rest
    | _ => cs
  match body.dropWhile Text.isDecimalDigit with
  | [] => isDigits body
  | '.' :: fraction => isDigits (body.takeWhile Text.isDecimalDigit) && isDigits fraction
  | _ => false

end Operand

end ImpMachine
