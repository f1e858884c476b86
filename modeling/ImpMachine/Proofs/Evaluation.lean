import ImpMachine.Proofs.Interpreter
import ImpMachine.Tree.Basic

/-!
# Running trees directly

What a program without functions means as a tree. Expressions are evaluated from left to right, an
assignment writes its variable on the way, and both sides of an operator are always evaluated. The
state is that of linear code, so the two can be compared. As there, a run has a bound on the rounds
of every loop.
-/

namespace ImpMachine

open Linear

/-! ## Expressions -/

/-- The word that a literal stands for. Doubles and texts stand for none. -/
def Literal.word? : Literal → Option Int64
  | .integer n => some n
  | .char c => some (Int64.ofNat c.toNat)
  | .bool b => some (truth b)
  | .null => some 0
  | .float _ | .string _ => none

namespace Expr

/-- The value of an expression and the state after it. Calls have no meaning here. -/
def eval? : Expr → State → Option (Int64 × State)
  | .literal value, s => return (← value.word?, s)
  | .var name, s => return (s.store name, s)
  | .binary op left right, s => do
    let (a, s) ← left.eval? s
    let (b, s) ← right.eval? s
    return (op.eval a b, s)
  | .unary op operand, s => do
    let (a, s) ← operand.eval? s
    return (op.eval a, s)
  | .logical op left right, s => do
    let (a, s) ← left.eval? s
    let (b, s) ← right.eval? s
    return (op.eval a b, s)
  | .call .., _ => none
  | .assign name value, s => do
    let (a, s) ← value.eval? s
    return (a, s.set name a)

/-- The expression calls nothing, and its literals are words. -/
inductive IsWord : Expr → Prop where
  | literal {value : Literal} : value.word?.isSome → IsWord (.literal value)
  | var (name : String) : IsWord (.var name)
  | binary (op : BinaryOp) {left right : Expr} :
      IsWord left → IsWord right → IsWord (.binary op left right)
  | unary (op : UnaryOp) {operand : Expr} : IsWord operand → IsWord (.unary op operand)
  | logical (op : LogicalOp) {left right : Expr} :
      IsWord left → IsWord right → IsWord (.logical op left right)
  | assign (name : String) {value : Expr} : IsWord value → IsWord (.assign name value)

instance decidableIsWord : (e : Expr) → Decidable e.IsWord
  | .literal value => decidable_of_iff (value.word?.isSome = true) ⟨.literal, fun | .literal h => h⟩
  | .var name => isTrue (.var name)
  | .binary op left right =>
    have := left.decidableIsWord
    have := right.decidableIsWord
    decidable_of_iff (left.IsWord ∧ right.IsWord)
      ⟨fun h => .binary op h.1 h.2, fun | .binary _ hl hr => ⟨hl, hr⟩⟩
  | .logical op left right =>
    have := left.decidableIsWord
    have := right.decidableIsWord
    decidable_of_iff (left.IsWord ∧ right.IsWord)
      ⟨fun h => .logical op h.1 h.2, fun | .logical _ hl hr => ⟨hl, hr⟩⟩
  | .unary op operand =>
    have := operand.decidableIsWord
    decidable_of_iff operand.IsWord ⟨.unary op, fun | .unary _ h => h⟩
  | .call .. => isFalse nofun
  | .assign name value =>
    have := value.decidableIsWord
    decidable_of_iff value.IsWord ⟨.assign name, fun | .assign _ h => h⟩

mutual

/-- The variables of an expression, an entry for each occurrence, those assigned included. -/
def names : Expr → List String
  | .literal _ => []
  | .var name => [name]
  | .binary _ left right | .logical _ left right => left.names ++ right.names
  | .unary _ operand => operand.names
  | .call _ args => namesAll args
  | .assign name value => name :: value.names

/-- The variables of several expressions. -/
def namesAll : List Expr → List String
  | [] => []
  | e :: rest => e.names ++ namesAll rest

end

mutual

/-- The assignments in an expression: the variable and the right-hand side of each. -/
def assignments : Expr → List (String × Expr)
  | .literal _ | .var _ => []
  | .binary _ left right | .logical _ left right => left.assignments ++ right.assignments
  | .unary _ operand => operand.assignments
  | .call _ args => assignmentsAll args
  | .assign name value => (name, value) :: value.assignments

/-- The assignments in several expressions. -/
def assignmentsAll : List Expr → List (String × Expr)
  | [] => []
  | e :: rest => e.assignments ++ assignmentsAll rest

end

/-- The variables that an expression assigns, one entry for each assignment. -/
def assigned (e : Expr) : List String := e.assignments.map Prod.fst

/-- Every variable assigned in the expression is assigned once, and occurs otherwise only on the
right-hand side of that assignment. -/
def AssignsApart (e : Expr) : Prop :=
  ∀ a ∈ e.assignments, e.assigned.count a.1 = 1 ∧ e.names.count a.1 = 1 + a.2.names.count a.1

instance (e : Expr) : Decidable e.AssignsApart :=
  inferInstanceAs (Decidable (∀ a ∈ e.assignments, _))

/-- The expression consists of words and keeps its assignments apart. -/
def IsFlattenable (e : Expr) : Prop := e.IsWord ∧ e.AssignsApart

instance (e : Expr) : Decidable e.IsFlattenable :=
  inferInstanceAs (Decidable (_ ∧ _))

end Expr

/-! ## Statements -/

/-- Repeats a step while a test, which may change the state, is not zero, for at most so many
rounds. -/
def repeatWhile {σ : Type} (test : σ → Option (Int64 × σ)) (step : σ → Option σ) :
    Nat → σ → Option σ
  | rounds, s => do
    let (v, s) ← test s
    if v = 0 then return s
    else match rounds with
      | 0 => none
      | rounds + 1 => repeatWhile test step rounds (← step s)

namespace Stmt

mutual

/-- The state after a statement, if no loop takes more than `bound` rounds. Functions, returns and
macros have no meaning here. -/
def run (bound : Nat) : Stmt → State → Option State
  | .varDecl name init, s => do
    let (v, s) ← init.eval? s
    return s.set name v
  | .print e, s => do
    let (v, s) ← e.eval? s
    return s.print v
  | .expr e, s => do
    let (_, s) ← e.eval? s
    return s
  | .ifThen cond body, s => do
    let (v, s) ← cond.eval? s
    if v = 0 then return s else runAll bound body s
  | .ifElse cond body alternative, s => do
    let (v, s) ← cond.eval? s
    if v = 0 then runAll bound alternative s else runAll bound body s
  | .while cond body, s => repeatWhile cond.eval? (runAll bound body) bound s
  | .block body, s => runAll bound body s
  | .ret _, _ | .funcDecl .., _ | .macroDecl .., _ => none

/-- The state after several statements. -/
def runAll (bound : Nat) : List Stmt → State → Option State
  | [], s => return s
  | stmt :: rest, s => do runAll bound rest (← stmt.run bound s)

end

mutual

/-- The statement declares no function or macro, does not return, and all its expressions have the
property. -/
def Uses (P : Expr → Prop) : Stmt → Prop
  | .varDecl _ e | .print e | .expr e => P e
  | .ifThen cond body | .while cond body => P cond ∧ UsesAll P body
  | .ifElse cond body alternative => P cond ∧ UsesAll P body ∧ UsesAll P alternative
  | .block body => UsesAll P body
  | .ret _ | .funcDecl .. | .macroDecl .. => False

/-- The same for several statements. -/
def UsesAll (P : Expr → Prop) : List Stmt → Prop
  | [] => True
  | stmt :: rest => stmt.Uses P ∧ UsesAll P rest

end

mutual

instance decidableUses (P : Expr → Prop) [DecidablePred P] :
    (stmt : Stmt) → Decidable (stmt.Uses P)
  | .varDecl _ e | .print e | .expr e => inferInstanceAs (Decidable (P e))
  | .ifThen _ body | .while _ body =>
    have := decidableUsesAll P body
    inferInstanceAs (Decidable (_ ∧ _))
  | .ifElse _ body alternative =>
    have := decidableUsesAll P body
    have := decidableUsesAll P alternative
    inferInstanceAs (Decidable (_ ∧ _))
  | .block body => decidableUsesAll P body
  | .ret _ | .funcDecl .. | .macroDecl .. => isFalse id

instance decidableUsesAll (P : Expr → Prop) [DecidablePred P] :
    (stmts : List Stmt) → Decidable (UsesAll P stmts)
  | [] => isTrue trivial
  | stmt :: rest =>
    have := decidableUses P stmt
    have := decidableUsesAll P rest
    inferInstanceAs (Decidable (_ ∧ _))

end

/-- The program, started in a state, halts in another. -/
def HaltsIn (program : List Stmt) (s t : State) : Prop :=
  ∃ bound, runAll bound program s = some t

end Stmt

/-- Properly nested code, started in a state, halts in another. -/
def Linear.HaltsIn (code : List Instr) (s t : State) : Prop :=
  ∃ program : Body, program.flatten = code ∧ ∃ bound, program.run bound s = some t

end ImpMachine
