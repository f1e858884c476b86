import ImpMachine.Tree.Basic
import ImpMachine.Tree.ParseError

/-!
# From tokens to trees

A recursive-descent parser. Its input is the tokens before the end marker; the marker itself is
passed along to locate errors at the end of the input. Every function consumes at least one token
when it succeeds, and says so in its result type, so that the mutual recursion ends.

Expressions, from loose to tight: assignment, which groups to the right; then `||`, `&&`,
`== !=`, `< > <= >=`, `+ -` and `* / %`, which group to the left; then the prefixed `!` and `-`.
-/

namespace ImpMachine

namespace Parser

/-- What was read off the front of `tokens`, and the tokens left. -/
structure Parsed (tokens : List Token) (α : Type) where
  value : α
  rest : List Token
  shorter : rest.length < tokens.length

/-- What was read off the front of `tokens`, if anything, and the tokens left. -/
structure Extended (tokens : List Token) (α : Type) where
  value : α
  rest : List Token
  notLonger : rest.length ≤ tokens.length

/-- Takes a token of the given kind. -/
def expect (stop : Token) (kind : Token.Kind) (tokens : List Token) :
    Except ParseError (Parsed tokens Token) :=
  match tokens with
  | t :: rest =>
    if t.kind = kind then .ok ⟨t, rest, by simp⟩
    else .error (.unexpected kind.describe t)
  | [] => .error (.unexpected kind.describe stop)

/-! ## Expressions -/

/-- An operator between two expressions. -/
inductive Connective where
  | binary (op : BinaryOp)
  | logical (op : LogicalOp)
  deriving DecidableEq

/-- The expression that a connective makes of its two sides. -/
def Connective.apply : Connective → Expr → Expr → Expr
  | .binary op => .binary op
  | .logical op => .logical op

/-- The connective of a tier that a token stands for. Tier 0 binds tightest. -/
def connective? : Nat → Token.Kind → Option Connective
  | 0, .star => some (.binary .mul)
  | 0, .slash => some (.binary .div)
  | 0, .percent => some (.binary .mod)
  | 1, .plus => some (.binary .add)
  | 1, .minus => some (.binary .sub)
  | 2, .lt => some (.binary .lt)
  | 2, .gt => some (.binary .gt)
  | 2, .ltEq => some (.binary .ltEq)
  | 2, .gtEq => some (.binary .gtEq)
  | 3, .eq => some (.binary .eq)
  | 3, .notEq => some (.binary .notEq)
  | 4, .and => some (.logical .and)
  | 5, .or => some (.logical .or)
  | _, _ => none

/-- The number of tiers. -/
def tiers : Nat := 6

/-- The operator that may stand before an expression. -/
def unaryOp? : Token.Kind → Option UnaryOp
  | .not => some .not
  | .minus => some .neg
  | _ => none

/-- The value of a literal token, or what was expected in its place. `none` for other tokens. -/
def literal? (t : Token) : Option (Except String Literal) :=
  match t.kind with
  | .integer =>
    match Decimal.readWord t.text.toList with
    | .ok n => some (.ok (.integer n))
    | .error _ => some (.error "integer within 64-bit range")
  | .float =>
    match Decimal.readReal t.text.toList with
    | some x => some (.ok (.float x))
    | none => some (.error "float literal")
  | .str => some (.ok (.string t.text))
  | .char =>
    match t.text.toList with
    | c :: _ => some (.ok (.char c))
    | [] => some (.error "char literal")
  | .kwTrue => some (.ok (.bool true))
  | .kwFalse => some (.ok (.bool false))
  | .kwNull => some (.ok .null)
  | _ => none

mutual

/-- An assignment or an expression of the loosest tier. The target has to be a variable, which is
checked after the value was read. -/
def expression (stop : Token) (tokens : List Token) : Except ParseError (Parsed tokens Expr) := do
  let ⟨target, rest, h⟩ ← tier stop tiers tokens
  match rest, h with
  | [], h => return ⟨target, [], h⟩
  | t :: more, h =>
    if t.kind = .assign then
      have hmore := Nat.lt_of_succ_lt h
      let ⟨value, rest, h'⟩ ← expression stop more
      match target with
      | .var name => return ⟨.assign name value, rest, by omega⟩
      | _ => throw (.invalidTarget t)
    else return ⟨target, t :: more, h⟩
termination_by (tokens.length, tiers + 3)

/-- An expression of the tiers below `height`. -/
def tier (stop : Token) (height : Nat) (tokens : List Token) :
    Except ParseError (Parsed tokens Expr) :=
  match height with
  | 0 => unary stop tokens
  | height + 1 => do
    let ⟨left, rest, h⟩ ← tier stop height tokens
    let ⟨value, rest, h'⟩ ← tierRest stop height left rest
    return ⟨value, rest, by omega⟩
termination_by (tokens.length, height + 2)

/-- The rest of a chain of connectives of one tier, whose left side has been read. -/
def tierRest (stop : Token) (height : Nat) (left : Expr) (tokens : List Token) :
    Except ParseError (Extended tokens Expr) :=
  match tokens with
  | [] => .ok ⟨left, [], Nat.le_refl _⟩
  | t :: more =>
    match connective? height t.kind with
    | none => .ok ⟨left, t :: more, Nat.le_refl _⟩
    | some c => do
      let ⟨right, rest, h⟩ ← tier stop height more
      let ⟨value, rest, h'⟩ ← tierRest stop height (c.apply left right) rest
      return ⟨value, rest, Nat.le_trans h' (Nat.le_of_lt (Nat.lt_succ_of_lt h))⟩
termination_by (tokens.length, 0)

/-- A primary expression with any number of operators before it. -/
def unary (stop : Token) (tokens : List Token) : Except ParseError (Parsed tokens Expr) :=
  match tokens with
  | [] => .error (.unexpected "expression" stop)
  | t :: more =>
    match unaryOp? t.kind with
    | some op => do
      let ⟨operand, rest, h⟩ ← unary stop more
      return ⟨.unary op operand, rest, by simp only [List.length_cons]; omega⟩
    | none => primary stop t more
termination_by (tokens.length, 1)

/-- A literal, a variable, a call or an expression in parentheses, starting with `t`. -/
def primary (stop t : Token) (more : List Token) : Except ParseError (Parsed (t :: more) Expr) :=
  match literal? t with
  | some (.ok value) => .ok ⟨.literal value, more, by simp⟩
  | some (.error expected) => .error (.unexpected expected t)
  | none =>
    match t.kind with
    | .ident =>
      match more with
      | [] => .ok ⟨.var t.text, [], by simp⟩
      | paren :: others =>
        if paren.kind = .lparen then do
          let ⟨args, rest, h⟩ ← arguments stop others
          return ⟨.call t.text args, rest, by simp only [List.length_cons]; omega⟩
        else .ok ⟨.var t.text, paren :: others, by simp⟩
    | .lparen => do
      let ⟨value, rest, h⟩ ← expression stop more
      let ⟨_, rest, h'⟩ ← expect stop .rparen rest
      return ⟨value, rest, by simp only [List.length_cons]; omega⟩
    | _ => .error (.unexpected "expression" t)
termination_by (more.length + 1, 0)

/-- The arguments of a call, after its opening parenthesis. -/
def arguments (stop : Token) (tokens : List Token) :
    Except ParseError (Parsed tokens (List Expr)) :=
  match tokens with
  | [] => .error (.unexpected "expression" stop)
  | t :: more =>
    if t.kind = .rparen then .ok ⟨[], more, by simp⟩
    else argumentList stop (t :: more)
termination_by (tokens.length, tiers + 5)

/-- At least one argument, and the closing parenthesis. -/
def argumentList (stop : Token) (tokens : List Token) :
    Except ParseError (Parsed tokens (List Expr)) := do
  let ⟨arg, rest, h⟩ ← expression stop tokens
  match rest, h with
  | [], _ => throw (.unexpected Token.Kind.rparen.describe stop)
  | t :: more, h =>
    have hmore := Nat.lt_of_succ_lt h
    if t.kind = .comma then
      let ⟨args, rest, h'⟩ ← argumentList stop more
      return ⟨arg :: args, rest, by omega⟩
    else if t.kind = .rparen then return ⟨[arg], more, hmore⟩
    else throw (.unexpected Token.Kind.rparen.describe t)
termination_by (tokens.length, tiers + 4)

end

/-! ## Statements -/

/-- An expression in parentheses. -/
def condition (stop : Token) (tokens : List Token) : Except ParseError (Parsed tokens Expr) := do
  let ⟨_, rest, _⟩ ← expect stop .lparen tokens
  let ⟨value, rest, _⟩ ← expression stop rest
  let ⟨_, rest, _⟩ ← expect stop .rparen rest
  return ⟨value, rest, by omega⟩

/-- An expression and a semicolon. -/
def closedExpression (stop : Token) (tokens : List Token) :
    Except ParseError (Parsed tokens Expr) := do
  let ⟨value, rest, _⟩ ← expression stop tokens
  let ⟨_, rest, _⟩ ← expect stop .semi rest
  return ⟨value, rest, by omega⟩

/-- What follows `let`: a name, an equals sign and a closed expression. -/
def variableDecl (stop : Token) (tokens : List Token) :
    Except ParseError (Parsed tokens Stmt) := do
  let ⟨name, rest, _⟩ ← expect stop .ident tokens
  let ⟨_, rest, _⟩ ← expect stop .assign rest
  let ⟨init, rest, _⟩ ← closedExpression stop rest
  return ⟨.varDecl name.text init, rest, by omega⟩

/-- At least one parameter, and the closing parenthesis. -/
def parameterList (stop : Token) (tokens : List Token) :
    Except ParseError (Parsed tokens (List String)) := do
  let ⟨name, rest, h⟩ ← expect stop .ident tokens
  match rest, h with
  | [], _ => throw (.unexpected Token.Kind.rparen.describe stop)
  | t :: more, h =>
    have hmore := Nat.lt_of_succ_lt h
    if t.kind = .comma then
      let ⟨names, rest, _⟩ ← parameterList stop more
      return ⟨name.text :: names, rest, by omega⟩
    else if t.kind = .rparen then return ⟨[name.text], more, hmore⟩
    else throw (.unexpected Token.Kind.rparen.describe t)
termination_by tokens.length

/-- The parameters of a function, after its opening parenthesis. -/
def parameters (stop : Token) (tokens : List Token) :
    Except ParseError (Parsed tokens (List String)) :=
  match tokens with
  | [] => .error (.unexpected Token.Kind.ident.describe stop)
  | t :: more =>
    if t.kind = .rparen then .ok ⟨[], more, by simp⟩
    else parameterList stop (t :: more)

mutual

/-- A declaration or a statement. -/
def declaration (stop : Token) (tokens : List Token) :
    Except ParseError (Parsed tokens Stmt) :=
  match tokens with
  | [] => .error (.unexpected "expression" stop)
  | t :: more =>
    match t.kind with
    | .kwFunc => do
      let ⟨name, rest, _⟩ ← expect stop .ident more
      let ⟨_, rest, _⟩ ← expect stop .lparen rest
      let ⟨params, rest, _⟩ ← parameters stop rest
      let ⟨body, rest, _⟩ ← block stop rest
      return ⟨.funcDecl name.text params body, rest, by simp only [List.length_cons]; omega⟩
    | .kwLet => do
      let ⟨stmt, rest, _⟩ ← variableDecl stop more
      return ⟨stmt, rest, by simp only [List.length_cons]; omega⟩
    | .kwMacro => do
      let ⟨name, rest, _⟩ ← expect stop .ident more
      let ⟨body, rest, _⟩ ← macroItems stop rest
      return ⟨.macroDecl name.text body, rest, by simp only [List.length_cons]; omega⟩
    | .kwIf => do
      let ⟨stmt, rest, _⟩ ← conditional stop more
      return ⟨stmt, rest, by simp only [List.length_cons]; omega⟩
    | .kwWhile => do
      let ⟨cond, rest, _⟩ ← condition stop more
      let ⟨body, rest, _⟩ ← block stop rest
      return ⟨.while cond body, rest, by simp only [List.length_cons]; omega⟩
    | .kwReturn => do
      let ⟨value, rest, _⟩ ← closedExpression stop more
      return ⟨.ret value, rest, by simp only [List.length_cons]; omega⟩
    | .kwPrint => do
      let ⟨value, rest, _⟩ ← closedExpression stop more
      return ⟨.print value, rest, by simp only [List.length_cons]; omega⟩
    | .lbrace => do
      let ⟨body, rest, h⟩ ← block stop (t :: more)
      return ⟨.block body, rest, h⟩
    | _ => do
      let ⟨value, rest, h⟩ ← closedExpression stop (t :: more)
      return ⟨.expr value, rest, h⟩
termination_by (tokens.length, 2)

/-- What follows `if`. An `else if` is an alternative that holds just the second `if`. -/
def conditional (stop : Token) (tokens : List Token) :
    Except ParseError (Parsed tokens Stmt) := do
  let ⟨cond, rest, _⟩ ← condition stop tokens
  let ⟨body, rest, h⟩ ← block stop rest
  match rest, h with
  | [], h => return ⟨.ifThen cond body, [], by omega⟩
  | t :: more, h =>
    have hmore := Nat.lt_of_succ_lt h
    if t.kind = .kwElse then
      match more, hmore with
      | u :: others, hmore =>
        have hothers := Nat.lt_of_succ_lt hmore
        if u.kind = .kwIf then
          let ⟨alternative, rest, _⟩ ← conditional stop others
          return ⟨.ifElse cond body [alternative], rest, by omega⟩
        else
          let ⟨alternative, rest, _⟩ ← block stop (u :: others)
          return ⟨.ifElse cond body alternative, rest, by omega⟩
      | [], _ => throw (.unexpected Token.Kind.lbrace.describe stop)
    else return ⟨.ifThen cond body, t :: more, by omega⟩
termination_by (tokens.length, 0)

/-- Statements in braces. -/
def block (stop : Token) (tokens : List Token) :
    Except ParseError (Parsed tokens (List Stmt)) := do
  let ⟨_, rest, _⟩ ← expect stop .lbrace tokens
  let ⟨body, rest, _⟩ ← blockItems stop rest
  return ⟨body, rest, by omega⟩
termination_by (tokens.length, 1)

/-- Statements up to the closing brace. Stray semicolons are dropped. -/
def blockItems (stop : Token) (tokens : List Token) :
    Except ParseError (Parsed tokens (List Stmt)) :=
  match tokens with
  | [] => .error (.unexpected Token.Kind.rbrace.describe stop)
  | t :: more =>
    if t.kind = .rbrace then .ok ⟨[], more, by simp⟩
    else if t.kind = .semi then do
      let ⟨items, rest, _⟩ ← blockItems stop more
      return ⟨items, rest, by simp only [List.length_cons]; omega⟩
    else do
      let ⟨item, rest, _⟩ ← declaration stop (t :: more)
      let ⟨items, rest, _⟩ ← blockItems stop rest
      return ⟨item :: items, rest, by omega⟩
termination_by (tokens.length, 3)

/-- Statements up to `endmacro`. Stray semicolons are errors here. -/
def macroItems (stop : Token) (tokens : List Token) :
    Except ParseError (Parsed tokens (List Stmt)) :=
  match tokens with
  | [] => .error (.unexpected Token.Kind.kwEndMacro.describe stop)
  | t :: more =>
    if t.kind = .kwEndMacro then .ok ⟨[], more, by simp⟩
    else do
      let ⟨item, rest, _⟩ ← declaration stop (t :: more)
      let ⟨items, rest, _⟩ ← macroItems stop rest
      return ⟨item :: items, rest, by omega⟩
termination_by (tokens.length, 3)

end

/-- Statements up to the end of the input. Stray semicolons are dropped. -/
def program (stop : Token) (tokens : List Token) : Except ParseError (List Stmt) :=
  match tokens with
  | [] => .ok []
  | t :: more =>
    if t.kind = .semi then program stop more
    else do
      let ⟨item, rest, _hrest⟩ ← declaration stop (t :: more)
      let items ← program stop rest
      return item :: items
termination_by tokens.length
decreasing_by
  · exact Nat.lt_succ_self _
  · exact _hrest

/-! ## Whole inputs -/

/-- The tokens before the end marker. -/
def content (tokens : List Token) : List Token :=
  tokens.takeWhile (·.kind != .eof)

/-- The end marker of a token list. A list without one ends right after its last token. -/
def endMarker (tokens : List Token) : Token :=
  match tokens.find? (·.kind == .eof), tokens.getLast? with
  | some marker, _ => marker
  | none, some last => Token.endOfInput last.line (last.col + last.len)
  | none, none => Token.endOfInput 1 1

end Parser

/-- Parses a whole program. -/
def parseProgram (tokens : List Token) : Except ParseError (List Stmt) :=
  Parser.program (Parser.endMarker tokens) (Parser.content tokens)

/-- Parses one expression that fills the whole input. -/
def parseExpression (tokens : List Token) : Except ParseError Expr := do
  let ⟨value, rest, _⟩ ← Parser.expression (Parser.endMarker tokens) (Parser.content tokens)
  match rest with
  | [] => return value
  | t :: _ => throw (.unexpected Token.Kind.eof.describe t)

end ImpMachine
