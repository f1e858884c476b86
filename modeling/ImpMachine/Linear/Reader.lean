import ImpMachine.Linear.Nesting
import ImpMachine.Linear.OfTree
import ImpMachine.Text.Split
import ImpMachine.Token.Lexer
import ImpMachine.Tree.Parser

/-!
# Reading listings

A listing has one instruction to a line: a mnemonic in brackets and its operands. Blanks around a
line do not count, and blank lines and lines that start with a semicolon are skipped. Operands are
read as expressions of the source language and folded. The code read has to be properly nested.
-/

namespace ImpMachine.Linear

/-- Why a line is refused. -/
inductive ListingFault where
  | notAnInstruction (line : String)
  | unknownInstruction (mnemonic : String)
  | unwantedOperands (mnemonic rest : String)
  | notABinding (rest : String)
  | notASignature (rest : String)
  | invalidParameter (name : String)
  | invalidMacroName (rest : String)
  | notACall (operand : String)
  | badReal (text : String)
  | badInteger (text : String) (fault : Decimal.IntegerFault)
  | source (error : SourceError)
  | expression (error : ParseError)
  | assignmentInside (text : String)
  | nesting (fault : StructureFault)
  deriving DecidableEq

/-- The wording of each fault. -/
def ListingFault.message : ListingFault → String
  | .notAnInstruction line => "expected '[MNEMONIC] operands', got '" ++ line ++ "'"
  | .unknownInstruction mnemonic => "unknown IR instruction [" ++ mnemonic ++ "]"
  | .unwantedOperands mnemonic rest =>
    "[" ++ mnemonic ++ "] takes no operands, got '" ++ rest ++ "'"
  | .notABinding rest => "expected 'name = value', got '" ++ rest ++ "'"
  | .notASignature rest => "expected 'name(params)', got '" ++ rest ++ "'"
  | .invalidParameter name => "invalid parameter name '" ++ name ++ "'"
  | .invalidMacroName rest => "invalid macro name '" ++ rest ++ "'"
  | .notACall operand => "expected a call, got '" ++ operand ++ "'"
  | .badReal text => "bad float '" ++ text ++ "': invalid float literal"
  | .badInteger text fault => "bad integer '" ++ text ++ "': " ++ fault.message
  | .source error => error.message
  | .expression error => error.message
  | .assignmentInside text => "assignment inside operand '" ++ text ++ "'"
  | .nesting fault => fault.message

/-- A fault and the number of its line. -/
structure ListingError where
  line : Nat
  fault : ListingFault
  deriving DecidableEq

/-- Line and cause. -/
def ListingError.message (e : ListingError) : String :=
  s!"line {e.line}: " ++ e.fault.message

/-! ## Operands -/

mutual

/-- The expression assigns to a variable somewhere. -/
def hasAssignment : Expr → Bool
  | .assign .. => true
  | .literal _ | .var _ => false
  | .binary _ left right | .logical _ left right => hasAssignment left || hasAssignment right
  | .unary _ operand => hasAssignment operand
  | .call _ args => anyAssignment args

/-- Some expression of the list assigns to a variable. -/
def anyAssignment : List Expr → Bool
  | [] => false
  | e :: rest => hasAssignment e || anyAssignment rest

end

/-- Reads an operand. A numeric literal is taken as it stands, so that a negative one is a
constant; anything else is an expression. -/
def readOperand (cs : List Char) : Except ListingFault Operand :=
  let cs := Text.trim cs
  let text := String.ofList cs
  if Operand.isNumericLiteral cs then
    if cs.contains '.' then
      match Decimal.readReal cs with
      | some x => .ok (.number (.float x))
      | none => .error (.badReal text)
    else
      match Decimal.readWord cs with
      | .ok n => .ok (.int n)
      | .error fault => .error (.badInteger text fault)
  else
    match tokenize text with
    | .error e => .error (.source e)
    | .ok tokens =>
      match parseExpression tokens with
      | .error e => .error (.expression e)
      | .ok e => if hasAssignment e then .error (.assignmentInside text) else .ok (flatten e).2

/-! ## Lines -/

/-- The name that a text starts with, and the rest. -/
def splitName (cs : List Char) : Option (List Char × List Char) :=
  match cs with
  | c :: _ =>
    if Lexer.isNameStart c then
      some (cs.takeWhile Lexer.isNameChar, cs.dropWhile Lexer.isNameChar)
    else none
  | [] => none

/-- The whole text is a name. -/
def isName (cs : List Char) : Bool :=
  match splitName cs with
  | some (_, []) => true
  | _ => false

/-- The mnemonic in brackets at the start of a line, and the trimmed rest. -/
def splitMnemonic (cs : List Char) : Option (String × List Char) :=
  match cs with
  | '[' :: rest =>
    let isMark (c : Char) : Bool := c.isUpper || c == '_'
    match rest.takeWhile isMark, rest.dropWhile isMark with
    | [], _ => none
    | mnemonic, ']' :: rest => some (String.ofList mnemonic, Text.trim rest)
    | _, _ => none
  | _ => none

/-- Reads `name = value`. -/
def readBinding (rest : List Char) : Except ListingFault (String × Operand) :=
  let refusal := .error (.notABinding (String.ofList rest))
  match splitName rest with
  | none => refusal
  | some (name, after) =>
    match Text.trimLeft after with
    | '=' :: value =>
      if (Text.trimLeft value).isEmpty then refusal
      else (readOperand value).map fun operand => (String.ofList name, operand)
    | _ => refusal

/-- Reads a list of parameter names. Empty entries are dropped. -/
def readParameters : List (List Char) → Except ListingFault (List String)
  | [] => .ok []
  | piece :: pieces =>
    let name := Text.trim piece
    if name.isEmpty then readParameters pieces
    else if isName name then
      (readParameters pieces).map (String.ofList name :: ·)
    else .error (.invalidParameter (String.ofList name))

/-- Reads `name(params)`. The last parenthesis of the line closes the list. -/
def readSignature (rest : List Char) : Except ListingFault (String × List String) :=
  let refusal := .error (.notASignature (String.ofList rest))
  match splitName rest with
  | some (name, '(' :: inner) =>
    match inner.getLast? with
    | some ')' =>
      (readParameters (Text.splitOn ',' inner.dropLast)).map fun params =>
        (String.ofList name, params)
    | _ => refusal
  | _ => refusal

/-- Reads an instruction that takes no operands. -/
def readBare (i : Instr) (rest : List Char) : Except ListingFault Instr :=
  if rest.isEmpty then .ok i else .error (.unwantedOperands i.mnemonic (String.ofList rest))

/-- Drops the arrow that may stand before a printed operand. -/
def dropArrow : List Char → List Char
  | '-' :: '>' :: rest => rest
  | cs => cs

/-- Reads the operands of the instruction with the given mnemonic. -/
def readOperands (mnemonic : String) (rest : List Char) : Except ListingFault Instr :=
  match mnemonic with
  | "DECLARE" => (readBinding rest).map fun (name, value) => .declare name value
  | "ASSIGN" => (readBinding rest).map fun (name, value) => .assign name value
  | "PRINT" => (readOperand (dropArrow rest)).map .print
  | "CALL" =>
    match readOperand rest with
    | .ok (.call callee args) => .ok (.call callee args)
    | .ok other => .error (.notACall other.render)
    | .error fault => .error fault
  | "FUNC_DECL" => (readSignature rest).map fun (name, params) => .funcDecl name params
  | "RETURN" => (readOperand rest).map .ret
  | "IF" => (readOperand rest).map .ifBegin
  | "WHILE" => (readOperand rest).map .whileBegin
  | "EXPR" => (readOperand rest).map .expr
  | "MACRO_DECL" =>
    if isName rest then .ok (.macroDecl (String.ofList rest))
    else .error (.invalidMacroName (String.ofList rest))
  | "END_FUNC" => readBare .endFunc rest
  | "ELSE" => readBare .elseMark rest
  | "END_IF" => readBare .endIf rest
  | "END_WHILE" => readBare .endWhile rest
  | "BLOCK_START" => readBare .blockStart rest
  | "BLOCK_END" => readBare .blockEnd rest
  | "END_MACRO" => readBare .endMacro rest
  | other => .error (.unknownInstruction other)

/-- Reads a trimmed line. -/
def readLine (line : List Char) : Except ListingFault Instr :=
  match splitMnemonic line with
  | some (mnemonic, rest) => readOperands mnemonic rest
  | none => .error (.notAnInstruction (String.ofList line))

/-- Reads lines, the first of which has the given number, and pairs each instruction with its line
number. -/
def readLines (number : Nat) : List (List Char) → Except ListingError (List (Nat × Instr))
  | [] => .ok []
  | raw :: rest =>
    let line := Text.trim raw
    if line.isEmpty || line.head? == some ';' then readLines (number + 1) rest
    else
      match readLine line with
      | .error fault => .error ⟨number, fault⟩
      | .ok i => (readLines (number + 1) rest).map ((number, i) :: ·)

/-- Reads a listing. A nesting fault is reported at the line of its instruction. -/
def readListing (text : String) : Except ListingError (List Instr) :=
  match readLines 1 (Text.splitOn '\n' text.toList) with
  | .error e => .error e
  | .ok numbered =>
    let code := numbered.map (·.2)
    match checkNesting code with
    | .ok () => .ok code
    | .error e => .error ⟨((numbered[e.index]?).map (·.1)).getD 0, .nesting e.fault⟩

end ImpMachine.Linear
