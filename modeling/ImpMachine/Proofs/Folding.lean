import ImpMachine.Proofs.Hoisting
import ImpMachine.Proofs.Listings

/-!
# Folded operands

Folding leaves an operand in which no operator is left that has only constants to work on
(`IsNormal`), and there it stops. It drops no variable and no call, and without doubles it keeps the
value, whatever the variables and the called functions do (`evalIn_fold`).

Operands are folded where they are made, by taking a tree apart and by reading a listing, so all of
them are normal already and folding them once more finds nothing to do (`fold_settles`).
-/

open List

namespace ImpMachine

variable {args : List Operand} {i : Instr} {value lhs rhs operand : Operand} {cs : List Char}
variable {name : String} {M : Type → Type}

namespace Operand

variable {e : Operand}

/-! ## Normal operands -/

/-- No operator in the operand has only constants to work on, logical ones and `!` apart, which are
never folded. -/
inductive IsNormal : Operand → Prop where
  | number (n : Number) : IsNormal (.number n)
  | text (s : String) : IsNormal (.text s)
  | var (name : String) : IsNormal (.var name)
  | binary (op : BinaryOp) {lhs rhs : Operand} : IsNormal lhs → IsNormal rhs →
      lhs.number? = none ∨ rhs.number? = none → IsNormal (.binary op lhs rhs)
  | neg {operand : Operand} : IsNormal operand → operand.number? = none →
      IsNormal (.unary .neg operand)
  | not {operand : Operand} : IsNormal operand → IsNormal (.unary .not operand)
  | logical (op : LogicalOp) {lhs rhs : Operand} : IsNormal lhs → IsNormal rhs →
      IsNormal (.logical op lhs rhs)
  | call (callee : String) {args : List Operand} : (∀ a ∈ args, IsNormal a) →
      IsNormal (.call callee args)

section Building

theorem isNormal_mkBinary (op : BinaryOp) (hlhs : lhs.IsNormal) (hrhs : rhs.IsNormal) :
    (mkBinary op lhs rhs).IsNormal := by
  rcases mkBinary_cases op lhs rhs with ⟨a, b, -, -, heq⟩ | ⟨hnone, heq⟩
  · rw [heq]
    exact .number _
  · rw [heq]
    exact .binary op hlhs hrhs hnone

theorem isNormal_mkUnary (op : UnaryOp) (h : operand.IsNormal) : (mkUnary op operand).IsNormal := by
  rcases mkUnary_cases op operand with ⟨n, -, -, heq⟩ | ⟨hnone, heq⟩
  · rw [heq]
    exact .number _
  · rw [heq]
    cases op with
    | neg => exact .neg h (hnone rfl)
    | not => exact .not h

theorem calls_mkBinary (op : BinaryOp) : (mkBinary op lhs rhs).calls = lhs.calls ++ rhs.calls := by
  rcases mkBinary_cases op lhs rhs with ⟨a, b, rfl, rfl, heq⟩ | ⟨-, heq⟩ <;> rw [heq] <;> rfl

theorem calls_mkUnary (op : UnaryOp) : (mkUnary op operand).calls = operand.calls := by
  rcases mkUnary_cases op operand with ⟨n, rfl, rfl, heq⟩ | ⟨-, heq⟩ <;> rw [heq] <;> rfl

end Building

/-- A normal operand is not changed. -/
theorem IsNormal.fold_eq (h : e.IsNormal) : e.fold = e := by
  induction h with
  | number | text | var => rfl
  | @binary op lhs rhs _ _ hnone ihlhs ihrhs =>
    rw [fold, ihlhs, ihrhs]
    -- one side is no constant, so the operator stays
    rcases mkBinary_cases op lhs rhs with ⟨a, b, rfl, rfl, -⟩ | ⟨-, heq⟩
    · rcases hnone with hnone | hnone <;> cases hnone
    · exact heq
  | @neg operand _ hnone ih =>
    rw [fold, ih]
    rcases mkUnary_cases .neg operand with ⟨n, -, rfl, -⟩ | ⟨-, heq⟩
    · cases hnone
    · exact heq
  | not _ ih =>
    rw [fold, ih]
    rfl
  | logical op _ _ ihlhs ihrhs => rw [fold, ihlhs, ihrhs]
  | call callee _ ih => rw [fold, Linear.foldAll_eq_self ih]

theorem foldAll_eq_map (args : List Operand) : foldAll args = args.map fold := by
  induction args with
  | nil => rfl
  | cons a args ih => rw [foldAll, ih, map_cons]

/-- **Folding leaves a normal operand.** -/
theorem isNormal_fold (e : Operand) : e.fold.IsNormal := by
  induction e with
  | number n => exact .number n
  | text s => exact .text s
  | var name => exact .var name
  | binary op _ _ ihlhs ihrhs => exact isNormal_mkBinary op ihlhs ihrhs
  | unary op _ ih => exact isNormal_mkUnary op ih
  | logical op _ _ ihlhs ihrhs => exact .logical op ihlhs ihrhs
  | call callee args ih =>
    rw [fold, foldAll_eq_map]
    exact .call callee (forall_mem_map.2 ih)

/-- Folding drops no variable. -/
theorem reads_fold (e : Operand) : e.fold.reads = e.reads := by
  induction e with
  | number | text | var => rfl
  | binary op _ _ ihlhs ihrhs => rw [fold, reads_mkBinary, ihlhs, ihrhs, reads]
  | unary op _ ih => rw [fold, reads_mkUnary, ih, reads]
  | logical op _ _ ihlhs ihrhs => rw [fold, reads, ihlhs, ihrhs, reads]
  | call callee args ih =>
    rw [fold, reads, reads, readsAll_eq_flatMap, readsAll_eq_flatMap, foldAll_eq_map,
      flatMap_map, flatMap_congr ih]

/-- Folding drops no call. -/
theorem calls_fold (e : Operand) : e.fold.calls = e.calls := by
  induction e with
  | number | text | var => rfl
  | binary op _ _ ihlhs ihrhs => rw [fold, calls_mkBinary, ihlhs, ihrhs, calls]
  | unary op _ ih => rw [fold, calls_mkUnary, ih, calls]
  | logical op _ _ ihlhs ihrhs => rw [fold, calls, ihlhs, ihrhs, calls]
  | call callee args ih =>
    rw [fold, calls, calls, callsAll_eq_flatMap, callsAll_eq_flatMap, foldAll_eq_map,
      flatMap_map, flatMap_congr ih]

/-! ## Values -/

/-- What variables, texts and calls mean. They may fail or have effects, as far as `M` has them. -/
structure Meaning (M : Type → Type) where
  read : String → M Int64
  call : String → List Int64 → M Int64
  text : String → M Int64
  double : Float → M Int64

section Evaluation

variable [Monad M] (meaning : Meaning M)

mutual

/-- The value of an operand, its parts evaluated from left to right. -/
def evalIn : Operand → M Int64
  | .number (.int n) => return n
  | .number (.float x) => meaning.double x
  | .text s => meaning.text s
  | .var name => meaning.read name
  | .binary op lhs rhs => do
    let a ← evalIn lhs
    let b ← evalIn rhs
    return op.eval a b
  | .unary op operand => do
    let a ← evalIn operand
    return op.eval a
  | .logical op lhs rhs => do
    let a ← evalIn lhs
    let b ← evalIn rhs
    return op.eval a b
  | .call callee args => do
    let values ← evalAllIn args
    meaning.call callee values

/-- The values of several operands. -/
def evalAllIn : List Operand → M (List Int64)
  | [] => return []
  | a :: rest => do
    let value ← evalIn a
    let values ← evalAllIn rest
    return value :: values

end

end Evaluation

/-- No constant in the operand is a double. -/
inductive IsFloatFree : Operand → Prop where
  | int (n : Int64) : IsFloatFree (.number (.int n))
  | text (s : String) : IsFloatFree (.text s)
  | var (name : String) : IsFloatFree (.var name)
  | binary (op : BinaryOp) {lhs rhs : Operand} :
      IsFloatFree lhs → IsFloatFree rhs → IsFloatFree (.binary op lhs rhs)
  | unary (op : UnaryOp) {operand : Operand} : IsFloatFree operand → IsFloatFree (.unary op operand)
  | logical (op : LogicalOp) {lhs rhs : Operand} :
      IsFloatFree lhs → IsFloatFree rhs → IsFloatFree (.logical op lhs rhs)
  | call (callee : String) {args : List Operand} : (∀ a ∈ args, IsFloatFree a) →
      IsFloatFree (.call callee args)

section Values

variable [Monad M] [LawfulMonad M] (meaning : Meaning M)

theorem isFloatFree_mkBinary (op : BinaryOp) (hlhs : lhs.IsFloatFree) (hrhs : rhs.IsFloatFree) :
    (mkBinary op lhs rhs).IsFloatFree := by
  rcases mkBinary_cases op lhs rhs with ⟨a, b, rfl, rfl, heq⟩ | ⟨-, heq⟩
  · cases hlhs
    cases hrhs
    rw [heq, Number.apply, Number.applyWords_eq]
    exact .int _
  · rw [heq]
    exact .binary op hlhs hrhs

theorem isFloatFree_mkUnary (op : UnaryOp) (h : operand.IsFloatFree) :
    (mkUnary op operand).IsFloatFree := by
  rcases mkUnary_cases op operand with ⟨n, -, rfl, heq⟩ | ⟨-, heq⟩
  · cases h
    rw [heq]
    exact .int _
  · rw [heq]
    exact .unary op h

/-- Folding an operator keeps its value. -/
theorem evalIn_mkBinary (op : BinaryOp) (hlhs : lhs.IsFloatFree) (hrhs : rhs.IsFloatFree) :
    (mkBinary op lhs rhs).evalIn meaning = (binary op lhs rhs).evalIn meaning := by
  rcases mkBinary_cases op lhs rhs with ⟨a, b, rfl, rfl, heq⟩ | ⟨-, heq⟩
  · cases hlhs
    cases hrhs
    rw [heq, Number.apply, Number.applyWords_eq]
    simp [evalIn]
  · rw [heq]

theorem evalIn_mkUnary (op : UnaryOp) (h : operand.IsFloatFree) :
    (mkUnary op operand).evalIn meaning = (unary op operand).evalIn meaning := by
  rcases mkUnary_cases op operand with ⟨n, rfl, rfl, heq⟩ | ⟨-, heq⟩
  · cases h
    rw [heq]
    simp [evalIn, Number.negate, UnaryOp.eval]
  · rw [heq]

theorem IsFloatFree.fold (h : e.IsFloatFree) : e.fold.IsFloatFree := by
  induction h with
  | int n => exact .int n
  | text s => exact .text s
  | var name => exact .var name
  | binary op _ _ ihlhs ihrhs => exact isFloatFree_mkBinary op ihlhs ihrhs
  | unary op _ ih => exact isFloatFree_mkUnary op ih
  | logical op _ _ ihlhs ihrhs => exact .logical op ihlhs ihrhs
  | call callee _ ih =>
    rw [Operand.fold, foldAll_eq_map]
    exact .call callee (forall_mem_map.2 ih)

omit [LawfulMonad M] in
theorem evalAllIn_foldAll (h : ∀ a ∈ args, a.fold.evalIn meaning = a.evalIn meaning) :
    evalAllIn meaning (foldAll args) = evalAllIn meaning args := by
  induction args with
  | nil => rfl
  | cons a rest ih =>
    obtain ⟨ha, hrest⟩ := forall_mem_cons.1 h
    rw [foldAll, evalAllIn, ha, ih hrest, evalAllIn]

/-- **Folding keeps the value**, whatever the variables and the functions do. -/
theorem evalIn_fold (h : e.IsFloatFree) : e.fold.evalIn meaning = e.evalIn meaning := by
  induction h with
  | int | text | var => rfl
  | binary op hlhs hrhs ihlhs ihrhs =>
    rw [Operand.fold, evalIn_mkBinary meaning op hlhs.fold hrhs.fold, evalIn, ihlhs, ihrhs, evalIn]
  | unary op h ih => rw [Operand.fold, evalIn_mkUnary meaning op h.fold, evalIn, ih, evalIn]
  | logical op _ _ ihlhs ihrhs => rw [Operand.fold, evalIn, ihlhs, ihrhs, evalIn]
  | call callee _ ih => rw [Operand.fold, evalIn, evalAllIn_foldAll meaning ih, evalIn]

end Values

/-- The variables have words, and nothing else has a meaning. -/
def Meaning.ofStore (store : Store) : Meaning Option where
  read name := some (store name)
  call _ _ := none
  text _ := none
  double _ := none

/-- The value in a store is the one where calls, texts and doubles have none. -/
theorem eval?_eq_evalIn (store : Store) (e : Operand) :
    e.eval? store = e.evalIn (.ofStore store) := by
  cases e with
  | number n => cases n <;> rfl
  | text | var => rfl
  | binary op lhs rhs | logical op lhs rhs =>
    rw [eval?, evalIn, eval?_eq_evalIn store lhs, eval?_eq_evalIn store rhs]
  | unary op operand => rw [eval?, evalIn, eval?_eq_evalIn store operand]
  | call callee args =>
    -- the arguments may have values, the call has none
    rw [eval?, evalIn]
    exact (Option.bind_fun_none _).symm

/-! ## Comparison -/

theorem sameAll_self (h : ∀ a ∈ args, a.same a = true) : sameAll args args = true := by
  induction args with
  | nil => rfl
  | cons a rest ih =>
    obtain ⟨ha, hrest⟩ := forall_mem_cons.1 h
    rw [sameAll, ha, ih hrest]
    rfl

/-- Without doubles an operand equals itself. -/
theorem IsFloatFree.same_self (h : e.IsFloatFree) : e.same e = true := by
  induction h with
  | int | text | var => simp [same, Number.same]
  | binary op _ _ ihlhs ihrhs | logical op _ _ ihlhs ihrhs => simp [same, ihlhs, ihrhs]
  | unary op _ ih => simp [same, ih]
  | call callee _ ih => simp [same, sameAll_self ih]

end Operand

namespace Linear

variable {code : List Instr} {rest : List Char}

/-! ## The operands of code -/

/-- All operands are normal. -/
def Instr.IsNormal (i : Instr) : Prop := ∀ op ∈ i.operands, op.IsNormal

/-- No operand has doubles. -/
def Instr.IsFloatFree (i : Instr) : Prop := ∀ op ∈ i.operands, op.IsFloatFree

theorem Instr.isNormal_of_operands (hi : i.operands = [value])
    (h : value.IsNormal) : i.IsNormal := by
  intro op hop
  rw [hi, mem_singleton] at hop
  exact hop ▸ h

theorem Instr.isNormal_of_nil (hi : i.operands = []) : i.IsNormal := by
  intro op hop
  rw [hi] at hop
  cases hop

mutual

/-- **Taking an expression apart leaves normal operands.** -/
theorem isNormal_flatten : (e : Expr) →
    (flatten e).2.IsNormal ∧ ∀ i ∈ (flatten e).1, i.IsNormal
  | .literal value => by
    cases value <;> exact ⟨by constructor, forall_mem_nil _⟩
  | .var name => ⟨.var name, forall_mem_nil _⟩
  | .binary op left right => by
    obtain ⟨hleft, hfirst⟩ := isNormal_flatten left
    obtain ⟨hright, hsecond⟩ := isNormal_flatten right
    exact ⟨Operand.isNormal_mkBinary op hleft hright,
      forall_mem_append.2 ⟨hfirst, hsecond⟩⟩
  | .unary op operand => by
    obtain ⟨hvalue, hhoisted⟩ := isNormal_flatten operand
    exact ⟨Operand.isNormal_mkUnary op hvalue, hhoisted⟩
  | .logical op left right => by
    obtain ⟨hleft, hfirst⟩ := isNormal_flatten left
    obtain ⟨hright, hsecond⟩ := isNormal_flatten right
    exact ⟨.logical op hleft hright, forall_mem_append.2 ⟨hfirst, hsecond⟩⟩
  | .call callee args => by
    obtain ⟨hvalues, hhoisted⟩ := isNormal_flattenAll args
    exact ⟨.call callee hvalues, hhoisted⟩
  | .assign name value => by
    obtain ⟨hvalue, hhoisted⟩ := isNormal_flatten value
    refine ⟨.var name, forall_mem_append.2 ⟨hhoisted, ?_⟩⟩
    exact forall_mem_singleton.2 (Instr.isNormal_of_operands rfl hvalue)

theorem isNormal_flattenAll : (es : List Expr) →
    (∀ op ∈ (flattenAll es).2, op.IsNormal) ∧ ∀ i ∈ (flattenAll es).1, i.IsNormal
  | [] => ⟨forall_mem_nil _, forall_mem_nil _⟩
  | e :: rest => by
    obtain ⟨hvalue, hfirst⟩ := isNormal_flatten e
    obtain ⟨hvalues, hsecond⟩ := isNormal_flattenAll rest
    exact ⟨forall_mem_cons.2 ⟨hvalue, hvalues⟩, forall_mem_append.2 ⟨hfirst, hsecond⟩⟩

end

/-- An instruction behind the assignments taken out of its operand. -/
theorem isNormal_hoisted_append {e : Expr} (hi : i.operands = [(flatten e).2]) :
    ∀ j ∈ (flatten e).1 ++ [i], j.IsNormal := by
  obtain ⟨hvalue, hhoisted⟩ := isNormal_flatten e
  refine forall_mem_append.2 ⟨hhoisted, forall_mem_singleton.2 ?_⟩
  exact Instr.isNormal_of_operands hi hvalue

theorem isNormal_ofExpression (e : Expr) : ∀ i ∈ ofExpression e, i.IsNormal := by
  have halone := isNormal_hoisted_append (e := e) (i := .expr (flatten e).2) rfl
  cases e with
  | assign name value => exact (isNormal_flatten (.assign name value)).2
  | call callee args =>
    obtain ⟨hvalues, hhoisted⟩ := isNormal_flattenAll args
    exact forall_mem_append.2 ⟨hhoisted, forall_mem_singleton.2 hvalues⟩
  | _ => exact halone

/-- Marks have no operands. -/
theorem isNormal_marked {first last : Instr} {body : List Instr} (hfirst : first.operands = [])
    (hlast : last.operands = []) (hbody : ∀ i ∈ body, i.IsNormal) :
    ∀ i ∈ first :: body ++ [last], i.IsNormal := by
  refine forall_mem_cons.2 ⟨Instr.isNormal_of_nil hfirst, ?_⟩
  exact forall_mem_append.2
    ⟨hbody, forall_mem_singleton.2 (Instr.isNormal_of_nil hlast)⟩

mutual

/-- The code of a statement has normal operands only. -/
theorem isNormal_ofStmt : (stmt : Stmt) → ∀ i ∈ ofStmt stmt, i.IsNormal
  | .varDecl .. | .print _ | .ret _ => isNormal_hoisted_append rfl
  | .ifThen cond body => by
    have hcond := isNormal_hoisted_append (e := cond) (i := .ifBegin (flatten cond).2) rfl
    have hbody := isNormal_ofStmts body
    have hend : Instr.IsNormal .endIf := Instr.isNormal_of_nil rfl
    grind [ofStmt]
  | .ifElse cond body alternative => by
    have hcond := isNormal_hoisted_append (e := cond) (i := .ifBegin (flatten cond).2) rfl
    have hbody := isNormal_ofStmts body
    have halternative := isNormal_ofStmts alternative
    have hmark : Instr.IsNormal .elseMark := Instr.isNormal_of_nil rfl
    have hend : Instr.IsNormal .endIf := Instr.isNormal_of_nil rfl
    grind [ofStmt]
  | .while cond body => by
    have hcond := isNormal_hoisted_append (e := cond) (i := .whileBegin (flatten cond).2) rfl
    have hbody := isNormal_ofStmts body
    have hend : Instr.IsNormal .endWhile := Instr.isNormal_of_nil rfl
    grind [ofStmt]
  | .block body | .funcDecl _ _ body | .macroDecl _ body =>
    isNormal_marked rfl rfl (isNormal_ofStmts body)
  | .expr e => isNormal_ofExpression e

/-- **Code taken out of a tree is folded.** -/
theorem isNormal_ofStmts : (stmts : List Stmt) → ∀ i ∈ ofStmts stmts, i.IsNormal
  | [] => forall_mem_nil _
  | stmt :: rest => forall_mem_append.2 ⟨isNormal_ofStmt stmt, isNormal_ofStmts rest⟩

end

/-! ## Operands that are read -/

/-- **Reading an operand folds it.** -/
theorem isNormal_of_readOperand {op : Operand} (h : readOperand cs = .ok op) : op.IsNormal := by
  unfold readOperand at h
  dsimp only at h
  split at h
  · -- a numeric literal is a constant
    split at h
    · split at h
      · cases h
        exact .number _
      · cases h
    · split at h
      · cases h
        exact .number _
      · cases h
  · split at h
    · cases h
    · split at h
      · cases h
      · split at h
        · cases h
        · cases h
          exact (isNormal_flatten _).1

theorem isNormal_of_readBinding (h : readBinding rest = .ok (name, value)) : value.IsNormal := by
  unfold readBinding at h
  dsimp only at h
  split at h
  · cases h
  · split at h
    · split at h
      · cases h
      · obtain ⟨operand, hoperand, heq⟩ := map_eq_ok.1 h
        cases heq
        exact isNormal_of_readOperand hoperand
    · cases h

theorem isNormal_of_readBare {j : Instr} (hi : i.operands = []) (h : readBare i rest = .ok j) :
    j.IsNormal := by
  unfold readBare at h
  split at h
  · cases h
    exact Instr.isNormal_of_nil hi
  · cases h

/-- An instruction with one operand, which is read. -/
theorem isNormal_of_map_readOperand {make : Operand → Instr}
    (hmake : ∀ op, (make op).operands = [op]) (h : (readOperand cs).map make = .ok i) :
    i.IsNormal := by
  obtain ⟨op, hop, rfl⟩ := map_eq_ok.1 h
  exact Instr.isNormal_of_operands (hmake op) (isNormal_of_readOperand hop)

/-- An instruction read from a listing is normal. -/
theorem isNormal_of_readOperands {mnemonic : String}
    (h : readOperands mnemonic rest = .ok i) : i.IsNormal := by
  unfold readOperands at h
  split at h
  · obtain ⟨⟨name, value⟩, hbinding, rfl⟩ := map_eq_ok.1 h
    exact Instr.isNormal_of_operands rfl (isNormal_of_readBinding hbinding)
  · obtain ⟨⟨name, value⟩, hbinding, rfl⟩ := map_eq_ok.1 h
    exact Instr.isNormal_of_operands rfl (isNormal_of_readBinding hbinding)
  · exact isNormal_of_map_readOperand (fun _ => rfl) h
  · -- a call is read as an operand
    split at h
    · rename_i callee args hread
      cases h
      cases isNormal_of_readOperand hread with
      | call _ hargs => exact hargs
    · cases h
    · cases h
  · obtain ⟨signature, -, rfl⟩ := map_eq_ok.1 h
    exact Instr.isNormal_of_nil rfl
  · exact isNormal_of_map_readOperand (fun _ => rfl) h
  · exact isNormal_of_map_readOperand (fun _ => rfl) h
  · exact isNormal_of_map_readOperand (fun _ => rfl) h
  · exact isNormal_of_map_readOperand (fun _ => rfl) h
  · split at h
    · cases h
      exact Instr.isNormal_of_nil rfl
    · cases h
  · exact isNormal_of_readBare rfl h
  · exact isNormal_of_readBare rfl h
  · exact isNormal_of_readBare rfl h
  · exact isNormal_of_readBare rfl h
  · exact isNormal_of_readBare rfl h
  · exact isNormal_of_readBare rfl h
  · exact isNormal_of_readBare rfl h
  · cases h

theorem isNormal_of_readLine {line : List Char} (h : readLine line = .ok i) : i.IsNormal := by
  unfold readLine at h
  split at h
  · exact isNormal_of_readOperands h
  · cases h

theorem isNormal_of_readLines {lines : List (List Char)} {number : Nat}
    {numbered : List (Nat × Instr)} (h : readLines number lines = .ok numbered) :
    ∀ p ∈ numbered, p.2.IsNormal := by
  induction lines generalizing number numbered with
  | nil =>
    cases h
    exact forall_mem_nil _
  | cons raw rest ih =>
    unfold readLines at h
    dsimp only at h
    split at h
    · exact ih h
    · split at h
      · cases h
      · rename_i i hline
        obtain ⟨later, hlater, rfl⟩ := map_eq_ok.1 h
        exact forall_mem_cons.2 ⟨isNormal_of_readLine hline, ih hlater⟩

/-- **The operands of a listing are normal.** -/
theorem isNormal_of_readListing {text : String} (h : readListing text = .ok code) :
    ∀ i ∈ code, i.IsNormal := by
  unfold readListing at h
  split at h
  · cases h
  · rename_i numbered hlines
    dsimp only at h
    split at h
    · cases h
      intro i hi
      obtain ⟨p, hp, rfl⟩ := mem_map.1 hi
      exact isNormal_of_readLines hlines p hp
    · cases h

/-! ## Folding code again -/

section Refolding

/-- A normal right-hand side is not changed. -/
theorem refolded_eq (h : i.IsNormal) : refolded i = i := by
  cases i with
  | declare name value | assign name value =>
    have hfold := (h value (mem_singleton_self value)).fold_eq
    rcases refoldValue_cases name value with hkept | ⟨finding, hfolded⟩
    · simp [refolded, refoldInstr, hkept]
    · simp [refolded, refoldInstr, hfolded, hfold]
  | _ => rfl

/-- A double that is no number differs from itself. -/
theorem refoldValue_eq_none (h : value.IsNormal) (hfree : value.IsFloatFree) :
    refoldValue name value = none := by
  simp only [refoldValue, h.fold_eq, hfree.same_self, if_true, ite_self]

theorem refoldInstr_eq (h : i.IsNormal) (hfree : i.IsFloatFree) : refoldInstr i = (i, []) := by
  cases i with
  | declare name value | assign name value =>
    have hvalue := mem_singleton_self value
    simp only [refoldInstr, refoldValue_eq_none (h value hvalue) (hfree value hvalue)]
  | _ => rfl

end Refolding

theorem refold_fst (h : ∀ i ∈ code, i.IsNormal) : (refold code).1 = code := by
  rw [refold_eq_map, map_congr_left fun i hi => refolded_eq (h i hi), map_id']

/-- **Folded code without doubles is folded to itself**, without a report. -/
theorem refold_eq (h : ∀ i ∈ code, i.IsNormal) (hfree : ∀ i ∈ code, i.IsFloatFree) :
    refold code = (code, []) := by
  -- the index only numbers what is reported, and nothing is
  have hfrom (index : Nat) : refoldFrom index code = (code, []) := by
    induction code generalizing index with
    | nil => rfl
    | cons i rest ih =>
      obtain ⟨hi, hrest⟩ := forall_mem_cons.1 h
      obtain ⟨hi', hrest'⟩ := forall_mem_cons.1 hfree
      simp [refoldFrom, refoldInstr_eq hi hi', ih hrest hrest']
  exact hfrom 0

/-- The second folding pass finds nothing to change. -/
theorem generate_code (program : List Stmt) : (generate program).code = ofStmts program :=
  refold_fst (isNormal_ofStmts program)

/-! ## Settled operands -/

/-- **Folding is done once and for all.** It leaves a normal operand, which it does not change again,
with the same variables and calls, and without doubles with the same value under every meaning of the
variables and the functions. What is taken out of a tree or read from a listing is folded already, so
the second pass over such code changes nothing, and without doubles it has nothing to report. -/
theorem fold_settles :
    (∀ e : Operand, e.fold.IsNormal ∧ e.fold.fold = e.fold ∧ e.fold.reads = e.reads ∧
        e.fold.calls = e.calls) ∧
      (∀ e : Operand, e.IsFloatFree → ∀ (M : Type → Type) [Monad M] [LawfulMonad M]
        (meaning : Operand.Meaning M), e.fold.evalIn meaning = e.evalIn meaning) ∧
      (∀ e : Expr, (flatten e).2.fold = (flatten e).2 ∧
        ∀ i ∈ (flatten e).1, ∀ op ∈ i.operands, op.fold = op) ∧
      (∀ (text : String) (code : List Instr), readListing text = .ok code →
        ∀ i ∈ code, ∀ op ∈ i.operands, op.fold = op) ∧
      (∀ program : List Stmt, (∀ i ∈ (generate program).code, i.IsFloatFree) →
        (generate program).code = ofStmts program ∧
          (generate program).diagnostics = undeclared (ofStmts program) ∧
          refold (generate program).code = ((generate program).code, [])) ∧
      ∀ (text : String) (code : List Instr), readListing text = .ok code →
        (∀ i ∈ code, i.IsFloatFree) → refold code = (code, []) := by
  refine ⟨fun e => ?_, fun e h M _ _ meaning => Operand.evalIn_fold meaning h, fun e => ?_,
    fun text code h i hi op hop => (isNormal_of_readListing h i hi op hop).fold_eq,
    fun program hfree => ?_, fun text code h hfree => refold_eq (isNormal_of_readListing h) hfree⟩
  · have hnormal := Operand.isNormal_fold e
    exact ⟨hnormal, hnormal.fold_eq, Operand.reads_fold e, Operand.calls_fold e⟩
  · obtain ⟨hvalue, hhoisted⟩ := isNormal_flatten e
    exact ⟨hvalue.fold_eq, fun i hi op hop => (hhoisted i hi op hop).fold_eq⟩
  · have hcode := generate_code program
    rw [hcode] at hfree ⊢
    have hrefold := refold_eq (isNormal_ofStmts program) hfree
    refine ⟨rfl, ?_, hrefold⟩
    simp [generate, hrefold]

/-- A call with constants to fold, and a variable that is added to a text. -/
def unsettled : Operand :=
  .call "f" [.binary .mul (.int 6) (.unary .neg (.int 7)), .binary .add (.var "x") (.text "y")]

theorem isFloatFree_unsettled : unsettled.IsFloatFree := by
  refine .call "f" (forall_mem_cons.2 ⟨?_, forall_mem_singleton.2 ?_⟩)
  · exact .binary .mul (.int 6) (.unary .neg (.int 7))
  · exact .binary .add (.var "x") (.text "y")

/-- Every variable is `5`, a text has no word, and a call notes its arguments and returns `1`. -/
def noting : Operand.Meaning (StateM (List Int64)) where
  read _ := return 5
  call _ args := do
    modify (· ++ args)
    return 1
  text _ := return 0
  double _ := return 0

/-- A difference of constants. -/
def difference : Operand := .binary .sub (.int 6) (.int 7)

theorem readable_difference : difference.Readable where
  names := forall_mem_nil _
  leaves := by simp [difference, Operand.leaves, Operand.int, Operand.IsWordOrVar]
  lowest := by
    have hne : Int64.minValue ≠ 6 ∧ Int64.minValue ≠ 7 := by decide
    simp [difference, Operand.leaves, Operand.int, hne]

/-- A listing with that difference. -/
theorem readListing_difference : readListing "[EXPR] (6 - 7)" = .ok [.expr (.int (-1))] := by
  have hoperand : readOperand "(6 - 7)".toList = .ok (.int (-1)) :=
    Operand.readOperand_render (.inl readable_difference.builtFrom) rfl
  have hsplit : Text.splitOn '\n' "[EXPR] (6 - 7)".toList = ["[EXPR] (6 - 7)".toList] := rfl
  have htrim : Text.trim "[EXPR] (6 - 7)".toList = "[EXPR] (6 - 7)".toList := rfl
  have hmnemonic : splitMnemonic "[EXPR] (6 - 7)".toList = some ("EXPR", "(6 - 7)".toList) := rfl
  have hline : readLine "[EXPR] (6 - 7)".toList = .ok (.expr (.int (-1))) := by
    rw [readLine, hmnemonic]
    simp only [readOperands, hoperand, Except.map]
  have hlines : readLines 1 ["[EXPR] (6 - 7)".toList] = .ok [(1, .expr (.int (-1)))] := by
    simp only [readLines, htrim, hline]
    rfl
  rw [readListing, hsplit, hlines]
  rfl

/-- A program with the same difference. -/
def printsDifference : List Stmt :=
  [.print (.binary .sub (.literal (.integer 6)) (.literal (.integer 7)))]

theorem fold_settles_unsettled :
    unsettled.fold = .call "f" [.int (-42), .binary .add (.var "x") (.text "y")] ∧
      (unsettled.fold.evalIn noting).run [] = (1, [-42, 5]) ∧
      (generate printsDifference).code = [.print (.int (-1))] ∧
      (generate printsDifference).diagnostics = [] ∧
      readListing "[EXPR] (6 - 7)" = .ok [.expr (.int (-1))] ∧
      refold [.expr (.int (-1))] = ([.expr (.int (-1))], []) := by
  obtain ⟨-, hvalue, -, -, hgenerate, hread⟩ := fold_settles
  have hprint : Instr.IsFloatFree (.print (.int (-1))) := forall_mem_singleton.2 (.int (-1))
  have hexpr : Instr.IsFloatFree (.expr (.int (-1))) := forall_mem_singleton.2 (.int (-1))
  obtain ⟨hcode, hdiagnostics, -⟩ :=
    hgenerate printsDifference (forall_mem_singleton.2 hprint)
  refine ⟨rfl, ?_, hcode, hdiagnostics, readListing_difference,
    hread _ _ readListing_difference (forall_mem_singleton.2 hexpr)⟩
  rw [hvalue unsettled isFloatFree_unsettled]
  rfl

end Linear

end ImpMachine
