import ImpMachine.Proofs.Folding

/-!
# Balanced code

Code is balanced if the nesting check goes through it from every stack of open constructs and leaves
that stack as it was (`Balanced`). The check accepts exactly the balanced code (`balanced_iff`), and
balanced code is made of plain instructions and of marks around balanced code.

The code of every tree is of that kind (`balanced_ofStmts`). A loop repeats the instructions in
front of its condition before its end mark. They are assignments, so no mark is written twice.
-/

namespace ImpMachine.Linear

open List

variable {i : Instr} {code rest front : List Instr}

/-! ## One instruction -/

section Steps

variable {index first : Nat} {stack stack' : List Opened} {divided : Bool}

/-- A plain instruction leaves the stack as it is. -/
theorem nestingStep_of_isPlain (h : i.IsPlain) : nestingStep index stack i = .ok stack := by
  obtain ⟨hopens, hcloses, helse⟩ := h
  unfold nestingStep
  rw [hopens, hcloses]
  cases i with
  | elseMark => exact absurd rfl helse
  | _ => rfl

/-- An opening mark puts its construct on the stack. -/
theorem nestingStep_first (opener : Opener) :
    nestingStep index stack opener.first = .ok (⟨index, opener.construct, false⟩ :: stack) := by
  cases opener <;> rfl

/-- The right end mark takes the innermost construct off. -/
theorem nestingStep_last {top : Opened} :
    nestingStep index (top :: stack) top.construct.last = .ok stack := by
  obtain ⟨openedAt, construct, hasElse⟩ := top
  cases construct <;> rfl

theorem nestingStep_ifBegin (cond : Operand) :
    nestingStep index stack (.ifBegin cond) = .ok (⟨index, .conditional, false⟩ :: stack) := rfl

theorem nestingStep_elseMark :
    nestingStep index (⟨first, .conditional, false⟩ :: stack) .elseMark =
      .ok (⟨first, .conditional, true⟩ :: stack) := rfl

theorem nestingStep_endIf :
    nestingStep index (⟨first, .conditional, divided⟩ :: stack) .endIf = .ok stack := rfl

/-- The check of code, one instruction at a time. -/
theorem nestingFrom_cons (h : nestingStep index stack i = .ok stack') :
    nestingFrom index stack (i :: rest) = nestingFrom (index + 1) stack' rest := by
  rw [nestingFrom, h]

theorem nestingFrom_cons_eq_ok (h : nestingFrom index stack (i :: rest) = .ok stack') :
    ∃ next, nestingStep index stack i = .ok next ∧
      nestingFrom (index + 1) next rest = .ok stack' := by
  rw [nestingFrom] at h
  split at h
  · cases h
  · rename_i next hstep
    exact ⟨next, hstep, h⟩

/-- The check goes on behind a part that it accepts, from the stack found there. -/
theorem nestingFrom_append (h : nestingFrom index stack front = .ok stack') :
    nestingFrom index stack (front ++ rest) = nestingFrom (index + front.length) stack' rest := by
  induction front generalizing index stack with
  | nil =>
    cases h
    rfl
  | cons i front ih =>
    obtain ⟨next, hstep, h⟩ := nestingFrom_cons_eq_ok h
    rw [cons_append, nestingFrom_cons hstep, ih h, length_cons, Nat.add_right_comm,
      Nat.add_assoc]

end Steps

/-! ## Balanced code -/

/-- The check goes through the code and leaves the open constructs as they were. -/
def Balanced (code : List Instr) : Prop :=
  ∀ index stack, nestingFrom index stack code = .ok stack

namespace Balanced

variable {body other : List Instr}

theorem nil : Balanced [] := fun _ _ => rfl

theorem append (hfront : Balanced front) (hrest : Balanced rest) : Balanced (front ++ rest) := by
  intro index stack
  rw [nestingFrom_append (hfront index stack), hrest]

/-- Plain instructions keep code balanced. -/
theorem plain_cons (hi : i.IsPlain) (hrest : Balanced rest) : Balanced (i :: rest) := by
  intro index stack
  rw [nestingFrom_cons (nestingStep_of_isPlain hi), hrest]

theorem of_isPlain (h : ∀ i ∈ code, i.IsPlain) : Balanced code := by
  induction code with
  | nil => exact .nil
  | cons i rest ih =>
    obtain ⟨hi, hrest⟩ := forall_mem_cons.1 h
    exact plain_cons hi (ih hrest)

/-- The marks of a construct around balanced code. -/
theorem enclosed (opener : Opener) (hbody : Balanced body) (hrest : Balanced rest) :
    Balanced (opener.first :: (body ++ opener.construct.last :: rest)) := by
  intro index stack
  rw [nestingFrom_cons (nestingStep_first opener), nestingFrom_append (hbody _ _),
    nestingFrom_cons nestingStep_last, hrest]

/-- The dividing mark is noted on the conditional, which its end mark then takes off. -/
theorem choice (cond : Operand) (hbody : Balanced body) (hother : Balanced other)
    (hrest : Balanced rest) :
    Balanced (.ifBegin cond :: (body ++ .elseMark :: (other ++ .endIf :: rest))) := by
  intro index stack
  rw [nestingFrom_cons (nestingStep_ifBegin cond), nestingFrom_append (hbody _ _),
    nestingFrom_cons nestingStep_elseMark, nestingFrom_append (hother _ _),
    nestingFrom_cons nestingStep_endIf, hrest]

end Balanced

/-- A tree written out is balanced. -/
theorem Nested.balanced_flatten (n : Nested) : Balanced n.flatten := by
  induction n with
  | nil => exact .nil
  | plain i hi rest ih => exact .plain_cons hi ih
  | enclosed opener body rest ihbody ihrest => exact .enclosed opener ihbody ihrest
  | choice cond body other rest ihbody ihother ihrest => exact .choice cond ihbody ihother ihrest

/-- **The check accepts exactly the balanced code.** -/
theorem balanced_iff : Balanced code ↔ checkNesting code = .ok () := by
  constructor
  · intro h
    rw [checkNesting, h 0 []]
  · intro h
    obtain ⟨n, rfl⟩ := exists_nested_of_checkNesting h
    exact n.balanced_flatten

/-! ## The code of trees -/

/-- The instruction opens, divides or closes a construct. -/
def Instr.isMark (i : Instr) : Bool :=
  i.opens?.isSome || i.closes?.isSome || i matches .elseMark

theorem Instr.isMark_eq_false_iff : i.isMark = false ↔ i.IsPlain := by
  cases i <;> simp [isMark, IsPlain, opens?, closes?]

theorem Instr.isPlain_assign (name : String) (value : Operand) :
    (Instr.assign name value).IsPlain :=
  isMark_eq_false_iff.1 rfl

mutual

/-- **Only assignments are taken out of an expression.** -/
theorem eq_assign_of_mem_flatten : (e : Expr) →
    ∀ i ∈ (flatten e).1, ∃ name value, i = .assign name value
  | .literal _ | .var _ => forall_mem_nil _
  | .binary _ left right | .logical _ left right =>
    forall_mem_append.2 ⟨eq_assign_of_mem_flatten left, eq_assign_of_mem_flatten right⟩
  | .unary _ operand => eq_assign_of_mem_flatten operand
  | .call _ args => eq_assign_of_mem_flattenAll args
  | .assign name value =>
    forall_mem_append.2
      ⟨eq_assign_of_mem_flatten value, forall_mem_singleton.2 ⟨name, _, rfl⟩⟩

theorem eq_assign_of_mem_flattenAll : (es : List Expr) →
    ∀ i ∈ (flattenAll es).1, ∃ name value, i = .assign name value
  | [] => forall_mem_nil _
  | e :: rest =>
    forall_mem_append.2 ⟨eq_assign_of_mem_flatten e, eq_assign_of_mem_flattenAll rest⟩

end

theorem balanced_of_assigns (h : ∀ i ∈ code, ∃ name value, i = .assign name value) :
    Balanced code := by
  refine .of_isPlain fun i hi => ?_
  obtain ⟨name, value, rfl⟩ := h i hi
  exact Instr.isPlain_assign name value

/-- What is taken out of an expression is balanced. -/
theorem balanced_flatten (e : Expr) : Balanced (flatten e).1 :=
  balanced_of_assigns (eq_assign_of_mem_flatten e)

/-- A plain instruction behind the assignments taken out of an expression. -/
theorem balanced_hoisted_append (e : Expr) (hi : i.isMark = false) :
    Balanced ((flatten e).1 ++ [i]) :=
  (balanced_flatten e).append (.plain_cons (Instr.isMark_eq_false_iff.1 hi) .nil)

theorem balanced_ofExpression (e : Expr) : Balanced (ofExpression e) := by
  have halone := balanced_hoisted_append e (i := .expr (flatten e).2) rfl
  cases e with
  | assign name value => exact balanced_flatten (.assign name value)
  | call callee args =>
    have hhoisted := balanced_of_assigns (eq_assign_of_mem_flattenAll args)
    exact hhoisted.append (.plain_cons (Instr.isMark_eq_false_iff.1 rfl) .nil)
  | _ => exact halone

mutual

/-- **The code of a statement is balanced.** -/
theorem balanced_ofStmt : (stmt : Stmt) → Balanced (ofStmt stmt)
  | .varDecl _ e | .print e | .ret e => balanced_hoisted_append e rfl
  | .ifThen cond body => by
    have hconditional := Balanced.enclosed (.conditional (flatten cond).2) (balanced_ofStmts body)
      .nil
    simpa [ofStmt, Opener.first, Opener.construct, Construct.last] using
      (balanced_flatten cond).append hconditional
  | .ifElse cond body alternative => by
    have hchoice := Balanced.choice (flatten cond).2 (balanced_ofStmts body)
      (balanced_ofStmts alternative) .nil
    simpa [ofStmt] using (balanced_flatten cond).append hchoice
  | .while cond body => by
    -- the assignments of the condition end the body as well
    have hbody := (balanced_ofStmts body).append (balanced_flatten cond)
    have hloop := Balanced.enclosed (.loop (flatten cond).2) hbody .nil
    simpa [ofStmt, Opener.first, Opener.construct, Construct.last] using
      (balanced_flatten cond).append hloop
  | .block body => .enclosed .block (balanced_ofStmts body) .nil
  | .funcDecl name params body => .enclosed (.function name params) (balanced_ofStmts body) .nil
  | .macroDecl name body => .enclosed (.macroBody name) (balanced_ofStmts body) .nil
  | .expr e => balanced_ofExpression e

theorem balanced_ofStmts : (stmts : List Stmt) → Balanced (ofStmts stmts)
  | [] => .nil
  | stmt :: rest => (balanced_ofStmt stmt).append (balanced_ofStmts rest)

end

/-! ## The marks of a loop -/

/-- The marks of code, in their order. -/
def marks (code : List Instr) : List Instr := code.filter Instr.isMark

theorem marks_append (front rest : List Instr) :
    marks (front ++ rest) = marks front ++ marks rest :=
  filter_append ..

theorem marks_flatten (e : Expr) : marks (flatten e).1 = [] := by
  refine filter_eq_nil_iff.2 fun i hi => ?_
  obtain ⟨name, value, rfl⟩ := eq_assign_of_mem_flatten e i hi
  simp [Instr.isMark, Instr.opens?, Instr.closes?]

/-- The repeated assignments add no mark to a loop. -/
theorem marks_while (cond : Expr) (body : List Stmt) :
    marks (ofStmt (.while cond body)) =
      .whileBegin (flatten cond).2 :: marks (ofStmts body) ++ [.endWhile] := by
  simp only [ofStmt, marks_append, marks_flatten, nil_append, append_nil]
  rfl

/-- **Generated code is balanced.** The check accepts it, and goes through it from every stack of
open constructs; only assignments are taken out of an expression, so the instructions that a loop
repeats add no mark to it. -/
theorem generate_balances (program : List Stmt) :
    checkNesting (generate program).code = .ok () ∧
      (∀ (index : Nat) (stack : List Opened),
        nestingFrom index stack (generate program).code = .ok stack) ∧
      (∀ (e : Expr), ∀ i ∈ (flatten e).1, ∃ name value, i = .assign name value) ∧
      ∀ (cond : Expr) (body : List Stmt),
        marks (ofStmt (.while cond body)) =
          .whileBegin (flatten cond).2 :: marks (ofStmts body) ++ [.endWhile] := by
  have hbalanced : Balanced (generate program).code := by
    rw [generate_code]
    exact balanced_ofStmts program
  exact ⟨balanced_iff.1 hbalanced, hbalanced, eq_assign_of_mem_flatten, marks_while⟩

/-- A loop in a function, with an assignment in its condition and a conditional inside. -/
def assigningLoop : List Stmt :=
  [.funcDecl "f" ["a"]
    [.while (.assign "x" (.var "a"))
      [.ifElse (.var "x") [.block []] [.print (.assign "y" (.literal (.integer 1)))]]]]

theorem generate_balances_assigningLoop :
    (generate assigningLoop).code =
        [.funcDecl "f" ["a"], .assign "x" (.var "a"), .whileBegin (.var "x"), .ifBegin (.var "x"),
          .blockStart, .blockEnd, .elseMark, .assign "y" (.int 1), .print (.var "y"), .endIf,
          .assign "x" (.var "a"), .endWhile, .endFunc] ∧
      checkNesting (generate assigningLoop).code = .ok () ∧
      ∀ i ∈ (flatten (.assign "x" (.var "a"))).1, ∃ name value, i = .assign name value := by
  obtain ⟨hcheck, -, hassigns, -⟩ := generate_balances assigningLoop
  exact ⟨rfl, hcheck, hassigns _⟩

end ImpMachine.Linear
