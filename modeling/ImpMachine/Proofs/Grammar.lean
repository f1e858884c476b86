import ImpMachine.Tree.Basic
import ImpMachine.Proofs.Lexemes

/-!
# The grammar of programs

Which token lists are programs, and of which trees, as productions over concatenated token lists.

    program     ::= items EOF
    items       ::= (declaration | ";")*
    declaration ::= "func" IDENT "(" (IDENT ("," IDENT)*)? ")" block
                  | "let" IDENT "=" assignment ";"
                  | "macro" IDENT declaration* "endmacro"
                  | conditional | "while" "(" assignment ")" block
                  | "return" assignment ";" | "print" assignment ";" | block | assignment ";"
    conditional ::= "if" "(" assignment ")" block ("else" (conditional | block))?
    block       ::= "{" items "}"
    assignment  ::= (disjunction "=")* disjunction
    disjunction, conjunction, equality, comparison, sum, product
                ::= a chain of the next tighter level, grouped to the left
    prefixed    ::= ("!" | "-")* primary
    primary     ::= LITERAL | IDENT | IDENT "(" (assignment ("," assignment)*)? ")"
                  | "(" assignment ")"

The target of an assignment is any phrase whose tree is a variable.
-/

namespace ImpMachine.Grammar

variable {tokens : List Token} {e : Expr}

/-! ## Literals -/

/-- The token is a literal with this value. Whole numbers are words; those for the counter of an
unrolled loop may be negative. -/
inductive IsLiteral : Token → Literal → Prop where
  | integer {t : Token} {n : Int64} :
      t.kind = .integer → Decimal.Denotes t.text.toList n.toInt → IsLiteral t (.integer n)
  | float {t : Token} {whole fraction : List Char} :
      t.kind = .float → t.text.toList = whole ++ '.' :: fraction →
      Decimal.IsNumeral whole → Decimal.IsNumeral fraction →
      IsLiteral t (.float
        (Float.ofScientific (Nat.ofDigitChars 10 (whole ++ fraction) 0) true fraction.length))
  | string {t : Token} : t.kind = .str → IsLiteral t (.string t.text)
  | char {t : Token} {c : Char} : t.kind = .char → t.text.toList = [c] → IsLiteral t (.char c)
  | yes {t : Token} : t.kind = .kwTrue → IsLiteral t (.bool true)
  | no {t : Token} : t.kind = .kwFalse → IsLiteral t (.bool false)
  | null {t : Token} : t.kind = .kwNull → IsLiteral t .null

/-- The text of a literal token is one that the lexer finds, or that of a word, for the counter of
an unrolled loop. -/
def HasLiteralText (t : Token) : Prop :=
  t.kind ∈ [Token.Kind.integer, .float, .str, .char] →
    (∃ source, Lexer.Lexeme t.kind source t.text.toList) ∨
      t.kind = .integer ∧ ∃ n : Int64, t.text = Decimal.wordText n

/-! ## Expressions -/

/-- The levels of expressions, from loose to tight. -/
inductive Level where
  | assignment
  | disjunction
  | conjunction
  | equality
  | comparison
  | sum
  | product
  | prefixed
  | primary
  deriving DecidableEq

variable {level level' : Level}

/-- The next tighter level. -/
def Level.tighter? : Level → Option Level
  | .assignment => some .disjunction
  | .disjunction => some .conjunction
  | .conjunction => some .equality
  | .equality => some .comparison
  | .comparison => some .sum
  | .sum => some .product
  | .product => some .prefixed
  | .prefixed => some .primary
  | .primary => none

/-- A token of this kind joins two phrases of the level to this tree. -/
inductive Joins : Level → Token.Kind → (Expr → Expr → Expr) → Prop where
  | or : Joins .disjunction .or (.logical .or)
  | and : Joins .conjunction .and (.logical .and)
  | eq : Joins .equality .eq (.binary .eq)
  | notEq : Joins .equality .notEq (.binary .notEq)
  | lt : Joins .comparison .lt (.binary .lt)
  | gt : Joins .comparison .gt (.binary .gt)
  | ltEq : Joins .comparison .ltEq (.binary .ltEq)
  | gtEq : Joins .comparison .gtEq (.binary .gtEq)
  | plus : Joins .sum .plus (.binary .add)
  | minus : Joins .sum .minus (.binary .sub)
  | star : Joins .product .star (.binary .mul)
  | slash : Joins .product .slash (.binary .div)
  | percent : Joins .product .percent (.binary .mod)

/-- A token of this kind before a phrase is the operator. -/
inductive Prefixes : Token.Kind → UnaryOp → Prop where
  | not : Prefixes .not .not
  | minus : Prefixes .minus .neg

/-- The pieces one after the other, with a comma between any two. -/
inductive Separated : List (List Token) → List Token → Prop where
  | nil : Separated [] []
  | single {piece : List Token} : Separated [piece] piece
  | cons {piece next tokens : List Token} {pieces : List (List Token)} {comma : Token} :
      comma.kind = .comma → Separated (next :: pieces) tokens →
      Separated (piece :: next :: pieces) (piece ++ comma :: tokens)

/-- The first piece comes first. -/
theorem Separated.starts {piece : List Token} {pieces : List (List Token)}
    (h : Separated (piece :: pieces) tokens) : piece <+: tokens := by
  cases h with
  | single => exact List.prefix_refl _
  | cons => exact List.prefix_append _ _

/-- The tokens are a phrase of the level with this tree. -/
inductive Derives : Level → List Token → Expr → Prop where
  | tighter {level next : Level} {tokens : List Token} {e : Expr} :
      level.tighter? = some next → Derives next tokens e → Derives level tokens e
  | assign {target tokens : List Token} {equals : Token} {name : String} {value : Expr} :
      Derives .disjunction target (.var name) → equals.kind = .assign →
      Derives .assignment tokens value →
      Derives .assignment (target ++ equals :: tokens) (.assign name value)
  | join {level next : Level} {left right : List Token} {t : Token} {a b : Expr}
      {tree : Expr → Expr → Expr} :
      Joins level t.kind tree → level.tighter? = some next →
      Derives level left a → Derives next right b →
      Derives level (left ++ t :: right) (tree a b)
  | operator {t : Token} {tokens : List Token} {op : UnaryOp} {e : Expr} :
      Prefixes t.kind op → Derives .prefixed tokens e →
      Derives .prefixed (t :: tokens) (.unary op e)
  | literal {t : Token} {value : Literal} :
      IsLiteral t value → Derives .primary [t] (.literal value)
  | var {t : Token} : t.kind = .ident → Derives .primary [t] (.var t.text)
  | call {name paren paren' : Token} {args : List (List Token × Expr)} {tokens : List Token} :
      name.kind = .ident → paren.kind = .lparen →
      (∀ arg ∈ args, Derives .assignment arg.1 arg.2) → Separated (args.map (·.1)) tokens →
      paren'.kind = .rparen →
      Derives .primary (name :: paren :: (tokens ++ [paren'])) (.call name.text (args.map (·.2)))
  | group {paren paren' : Token} {tokens : List Token} {e : Expr} :
      paren.kind = .lparen → Derives .assignment tokens e → paren'.kind = .rparen →
      Derives .primary (paren :: (tokens ++ [paren'])) e

/-- How tight a level is. -/
def Level.rank : Level → Nat
  | .assignment => 0
  | .disjunction => 1
  | .conjunction => 2
  | .equality => 3
  | .comparison => 4
  | .sum => 5
  | .product => 6
  | .prefixed => 7
  | .primary => 8

theorem Level.rank_injective (h : level.rank = level'.rank) : level = level' := by
  cases level <;> cases level' <;> first | rfl | cases h

/-- Every level but the last has a next one. -/
theorem Level.exists_tighter (h : level.rank < level'.rank) :
    ∃ next, level.tighter? = some next ∧ next.rank = level.rank + 1 := by
  cases level with
  | primary => cases level' <;> simp [Level.rank] at h
  | _ => exact ⟨_, rfl, rfl⟩

/-- A phrase of one level is one of every looser level. -/
theorem Derives.loosen (h : Derives level tokens e)
    (hle : level'.rank ≤ level.rank) : Derives level' tokens e := by
  induction hn : level.rank - level'.rank generalizing level' with
  | zero => exact Level.rank_injective (Nat.le_antisymm hle (by omega)) ▸ h
  | succ n ih =>
    have hlt : level'.rank < level.rank := by omega
    obtain ⟨next, hnext, hrank⟩ := Level.exists_tighter hlt
    exact .tighter hnext (ih (by omega) (by omega))

/-- The kinds of token that an expression can start with. -/
def startKinds : List Token.Kind :=
  [.integer, .float, .str, .char, .kwTrue, .kwFalse, .kwNull, .ident, .lparen, .not, .minus]

theorem IsLiteral.mem_startKinds {t : Token} {value : Literal} (h : IsLiteral t value) :
    t.kind ∈ startKinds := by
  cases h with
  | integer hkind | float hkind | string hkind | char hkind | yes hkind | no hkind | null hkind =>
    rw [hkind]
    decide

theorem Prefixes.mem_startKinds {kind : Token.Kind} {op : UnaryOp} (h : Prefixes kind op) :
    kind ∈ startKinds := by
  cases h <;> decide

/-- A phrase starts with a token that can start one. -/
theorem Derives.exists_head (h : Derives level tokens e) :
    ∃ t more, tokens = t :: more ∧ t.kind ∈ startKinds := by
  induction h with
  | tighter _ _ ih => exact ih
  | assign _ _ _ ih | join _ _ _ _ ih =>
    obtain ⟨t, more, rfl, hkind⟩ := ih
    exact ⟨t, _, rfl, hkind⟩
  | operator hop => exact ⟨_, _, rfl, hop.mem_startKinds⟩
  | literal hliteral => exact ⟨_, _, rfl, hliteral.mem_startKinds⟩
  | var hkind | call hkind | group hkind => exact ⟨_, _, rfl, by simp [hkind, startKinds]⟩

/-- An expression in parentheses. -/
def Condition (tokens : List Token) (e : Expr) : Prop :=
  ∃ paren inner paren', tokens = paren :: (inner ++ [paren']) ∧ paren.kind = .lparen ∧
    Derives .assignment inner e ∧ paren'.kind = .rparen

/-- An expression and a semicolon. -/
def Closed (tokens : List Token) (e : Expr) : Prop :=
  ∃ inner semi, tokens = inner ++ [semi] ∧ Derives .assignment inner e ∧ semi.kind = .semi

/-! ## Statements -/

/-- The phrases that statements are made of. -/
inductive Part where
  | declaration
  | conditional
  | block
  | items
  | macroItems
  deriving DecidableEq

/-- The tokens are such a phrase with these statements: one for a declaration, else those inside. -/
inductive Builds : Part → List Token → List Stmt → Prop where
  | function {keyword name paren paren' : Token} {names tokens block : List Token}
      {body : List Stmt} :
      keyword.kind = .kwFunc → name.kind = .ident → paren.kind = .lparen →
      (∀ n ∈ names, n.kind = .ident) → Separated (names.map ([·])) tokens →
      paren'.kind = .rparen → Builds .block block body →
      Builds .declaration (keyword :: name :: paren :: (tokens ++ paren' :: block))
        [.funcDecl name.text (names.map (·.text)) body]
  | varDecl {keyword name equals : Token} {tokens : List Token} {init : Expr} :
      keyword.kind = .kwLet → name.kind = .ident → equals.kind = .assign → Closed tokens init →
      Builds .declaration (keyword :: name :: equals :: tokens) [.varDecl name.text init]
  | macroDecl {keyword name last : Token} {tokens : List Token} {body : List Stmt} :
      keyword.kind = .kwMacro → name.kind = .ident → Builds .macroItems tokens body →
      last.kind = .kwEndMacro →
      Builds .declaration (keyword :: name :: (tokens ++ [last])) [.macroDecl name.text body]
  | conditional {tokens : List Token} {body : List Stmt} :
      Builds .conditional tokens body → Builds .declaration tokens body
  | loop {keyword : Token} {condition block : List Token} {cond : Expr} {body : List Stmt} :
      keyword.kind = .kwWhile → Condition condition cond → Builds .block block body →
      Builds .declaration (keyword :: (condition ++ block)) [.while cond body]
  | ret {keyword : Token} {tokens : List Token} {value : Expr} :
      keyword.kind = .kwReturn → Closed tokens value →
      Builds .declaration (keyword :: tokens) [.ret value]
  | print {keyword : Token} {tokens : List Token} {value : Expr} :
      keyword.kind = .kwPrint → Closed tokens value →
      Builds .declaration (keyword :: tokens) [.print value]
  | nested {tokens : List Token} {body : List Stmt} :
      Builds .block tokens body → Builds .declaration tokens [.block body]
  | expression {tokens : List Token} {value : Expr} :
      Closed tokens value → Builds .declaration tokens [.expr value]
  | ifThen {keyword : Token} {condition block : List Token} {cond : Expr} {body : List Stmt} :
      keyword.kind = .kwIf → Condition condition cond → Builds .block block body →
      Builds .conditional (keyword :: (condition ++ block)) [.ifThen cond body]
  | ifElse {keyword otherwise : Token} {part : Part} {condition block tokens : List Token}
      {cond : Expr} {body alternative : List Stmt} :
      keyword.kind = .kwIf → Condition condition cond → Builds .block block body →
      otherwise.kind = .kwElse → part = .conditional ∨ part = .block →
      Builds part tokens alternative →
      Builds .conditional (keyword :: (condition ++ (block ++ otherwise :: tokens)))
        [.ifElse cond body alternative]
  | block {brace brace' : Token} {tokens : List Token} {body : List Stmt} :
      brace.kind = .lbrace → Builds .items tokens body → brace'.kind = .rbrace →
      Builds .block (brace :: (tokens ++ [brace'])) body
  | noItems : Builds .items [] []
  | stray {semi : Token} {tokens : List Token} {body : List Stmt} :
      semi.kind = .semi → Builds .items tokens body → Builds .items (semi :: tokens) body
  | item {first tokens : List Token} {item body : List Stmt} :
      Builds .declaration first item → Builds .items tokens body →
      Builds .items (first ++ tokens) (item ++ body)
  | noMacroItems : Builds .macroItems [] []
  | macroItem {first tokens : List Token} {item body : List Stmt} :
      Builds .declaration first item → Builds .macroItems tokens body →
      Builds .macroItems (first ++ tokens) (item ++ body)

/-- The tokens, the end marker among them, are a program with these statements. -/
def Program (tokens : List Token) (body : List Stmt) : Prop :=
  ∃ inner marker, tokens = inner ++ [marker] ∧ marker.kind = .eof ∧ Builds .items inner body

end ImpMachine.Grammar
