import ImpMachine.Operand.Basic

/-!
# Linear code

Between the tree and the machine a program is a flat list of instructions. Constructs that enclose
others are marked at both ends: an `if` and its end, a loop and its end, a function, a macro, a
block. A listing shows one instruction to a line.
-/

namespace ImpMachine.Linear

/-- An instruction of linear code. -/
inductive Instr where
  | declare (name : String) (value : Operand)
  | assign (name : String) (value : Operand)
  | print (value : Operand)
  | call (callee : String) (args : List Operand)
  | funcDecl (name : String) (params : List String)
  | endFunc
  | ret (value : Operand)
  | ifBegin (cond : Operand)
  | elseMark
  | endIf
  | whileBegin (cond : Operand)
  | endWhile
  | expr (value : Operand)
  | blockStart
  | blockEnd
  | macroDecl (name : String)
  | endMacro

namespace Instr

/-- The instruction's name in listings and messages. -/
def mnemonic : Instr → String
  | .declare .. => "DECLARE"
  | .assign .. => "ASSIGN"
  | .print _ => "PRINT"
  | .call .. => "CALL"
  | .funcDecl .. => "FUNC_DECL"
  | .endFunc => "END_FUNC"
  | .ret _ => "RETURN"
  | .ifBegin _ => "IF"
  | .elseMark => "ELSE"
  | .endIf => "END_IF"
  | .whileBegin _ => "WHILE"
  | .endWhile => "END_WHILE"
  | .expr _ => "EXPR"
  | .blockStart => "BLOCK_START"
  | .blockEnd => "BLOCK_END"
  | .macroDecl _ => "MACRO_DECL"
  | .endMacro => "END_MACRO"

/-- The operands, in order of evaluation. -/
def operands : Instr → List Operand
  | .declare _ value | .assign _ value | .print value | .ret value | .ifBegin value
  | .whileBegin value | .expr value => [value]
  | .call _ args => args
  | _ => []

/-- What follows the mnemonic in a listing. -/
def argumentText : Instr → Option String
  | .declare name value | .assign name value => some (name ++ " = " ++ value.render)
  | .print value => some ("-> " ++ value.render)
  | .call callee args =>
    some (callee ++ "(" ++ ", ".intercalate (args.map Operand.render) ++ ")")
  | .funcDecl name params => some (name ++ "(" ++ ", ".intercalate params ++ ")")
  | .ret value | .ifBegin value | .whileBegin value | .expr value => some value.render
  | .macroDecl name => some name
  | _ => none

/-- The instruction's line in a listing. -/
def render (i : Instr) : String :=
  let head := "[" ++ i.mnemonic ++ "]"
  match i.argumentText with
  | some text => head ++ " " ++ text
  | none => head

/-- Equality as the language has it, with constants compared by `Number.same`. -/
def same : Instr → Instr → Bool
  | .declare n a, .declare m b | .assign n a, .assign m b => n == m && a.same b
  | .print a, .print b | .ret a, .ret b | .ifBegin a, .ifBegin b | .whileBegin a, .whileBegin b
  | .expr a, .expr b => a.same b
  | .call f as, .call g bs => f == g && Operand.sameAll as bs
  | .funcDecl f ps, .funcDecl g qs => f == g && ps == qs
  | .macroDecl n, .macroDecl m => n == m
  | .endFunc, .endFunc | .elseMark, .elseMark | .endIf, .endIf | .endWhile, .endWhile
  | .blockStart, .blockStart | .blockEnd, .blockEnd | .endMacro, .endMacro => true
  | _, _ => false

end Instr

/-- The listing of a program. -/
def render (code : List Instr) : String :=
  String.join (code.map fun i => i.render ++ "\n")

/-- Equality of two programs as the language has it. -/
def same : List Instr → List Instr → Bool
  | [], [] => true
  | i :: rest, j :: rest' => i.same j && same rest rest'
  | _, _ => false

end ImpMachine.Linear
