import ImpMachine.Proofs.Nested

/-!
# Running linear code directly

What linear code without calls means, apart from any machine. Variables are words in one flat store,
which a declaration and an assignment both write. Both sides of an operator are always evaluated.
A loop that does not end has no result, so a run is given a bound on the rounds of every loop, and
a program halts if it does so under some bound.
-/

namespace ImpMachine

/-! ## Operands -/

/-- The word of a truth value. -/
def truth (b : Bool) : Int64 := if b then 1 else 0

/-- An operator on words. -/
def BinaryOp.eval : BinaryOp → Int64 → Int64 → Int64
  | .add, a, b => a + b
  | .sub, a, b => a - b
  | .mul, a, b => a * b
  | .div, a, b => Arithmetic.floorDiv a b
  | .mod, a, b => Arithmetic.floorMod a b
  | .eq, a, b => truth (a = b)
  | .notEq, a, b => truth (a ≠ b)
  | .lt, a, b => truth (a < b)
  | .gt, a, b => truth (b < a)
  | .ltEq, a, b => truth (a ≤ b)
  | .gtEq, a, b => truth (b ≤ a)

/-- A unary operator on words. -/
def UnaryOp.eval : UnaryOp → Int64 → Int64
  | .neg, a => 0 - a
  | .not, a => truth (a = 0)

/-- A logical operator on words. -/
def LogicalOp.eval : LogicalOp → Int64 → Int64 → Int64
  | .and, a, b => truth (a ≠ 0 ∧ b ≠ 0)
  | .or, a, b => truth (a ≠ 0 ∨ b ≠ 0)

/-- The words of the variables. -/
abbrev Store := String → Int64

namespace Operand

/-- The operand consists of words, variables and operators. -/
inductive IsWord : Operand → Prop where
  | int (n : Int64) : IsWord (.number (.int n))
  | var (name : String) : IsWord (.var name)
  | binary (op : BinaryOp) {lhs rhs : Operand} :
      IsWord lhs → IsWord rhs → IsWord (.binary op lhs rhs)
  | unary (op : UnaryOp) {operand : Operand} : IsWord operand → IsWord (.unary op operand)
  | logical (op : LogicalOp) {lhs rhs : Operand} :
      IsWord lhs → IsWord rhs → IsWord (.logical op lhs rhs)

instance decidableIsWord : (e : Operand) → Decidable e.IsWord
  | .number (.int n) => isTrue (.int n)
  | .var name => isTrue (.var name)
  | .number (.float _) | .text _ | .call .. => isFalse nofun
  | .binary op lhs rhs =>
    match lhs.decidableIsWord, rhs.decidableIsWord with
    | isTrue hlhs, isTrue hrhs => isTrue (.binary op hlhs hrhs)
    | isFalse hlhs, _ => isFalse fun | .binary _ h _ => hlhs h
    | _, isFalse hrhs => isFalse fun | .binary _ _ h => hrhs h
  | .unary op operand =>
    match operand.decidableIsWord with
    | isTrue h => isTrue (.unary op h)
    | isFalse h => isFalse fun | .unary _ h' => h h'
  | .logical op lhs rhs =>
    match lhs.decidableIsWord, rhs.decidableIsWord with
    | isTrue hlhs, isTrue hrhs => isTrue (.logical op hlhs hrhs)
    | isFalse hlhs, _ => isFalse fun | .logical _ h _ => hlhs h
    | _, isFalse hrhs => isFalse fun | .logical _ _ h => hrhs h

/-- The value of an operand. Doubles, texts and calls have none. -/
def eval? (store : Store) : Operand → Option Int64
  | .number (.int n) => some n
  | .number (.float _) | .text _ | .call .. => none
  | .var name => some (store name)
  | .binary op lhs rhs => return op.eval (← lhs.eval? store) (← rhs.eval? store)
  | .unary op operand => return op.eval (← operand.eval? store)
  | .logical op lhs rhs => return op.eval (← lhs.eval? store) (← rhs.eval? store)

variable {store : Store} {lhs rhs operand : Operand} {v : Int64}

/-- An operator has a value where both sides have one. -/
theorem eval?_binary_eq_some {op : BinaryOp} :
    (binary op lhs rhs).eval? store = some v ↔
      ∃ a b, lhs.eval? store = some a ∧ rhs.eval? store = some b ∧ op.eval a b = v := by
  simp [eval?, Option.bind_eq_some_iff]

theorem eval?_unary_eq_some {op : UnaryOp} :
    (unary op operand).eval? store = some v ↔
      ∃ a, operand.eval? store = some a ∧ op.eval a = v := by
  simp [eval?, Option.bind_eq_some_iff]

theorem eval?_logical_eq_some {op : LogicalOp} :
    (logical op lhs rhs).eval? store = some v ↔
      ∃ a b, lhs.eval? store = some a ∧ rhs.eval? store = some b ∧ op.eval a b = v := by
  simp [eval?, Option.bind_eq_some_iff]

/-- Operands of words have a value in every store. -/
theorem IsWord.exists_eval? {e : Operand} (h : e.IsWord) (store : Store) :
    ∃ v, e.eval? store = some v := by
  induction h with
  | int n => exact ⟨n, rfl⟩
  | var name => exact ⟨store name, rfl⟩
  | binary op _ _ iha ihb =>
    obtain ⟨a, ha⟩ := iha
    obtain ⟨b, hb⟩ := ihb
    exact ⟨_, eval?_binary_eq_some.2 ⟨a, b, ha, hb, rfl⟩⟩
  | unary op _ ih =>
    obtain ⟨a, ha⟩ := ih
    exact ⟨_, eval?_unary_eq_some.2 ⟨a, ha, rfl⟩⟩
  | logical op _ _ iha ihb =>
    obtain ⟨a, ha⟩ := iha
    obtain ⟨b, hb⟩ := ihb
    exact ⟨_, eval?_logical_eq_some.2 ⟨a, b, ha, hb, rfl⟩⟩

end Operand

/-! ## Code -/

/-- Repeats a step until a test gives zero, for at most so many rounds. -/
def repeatUntilZero {σ : Type} (test : σ → Option Int64) (step : σ → Option σ) :
    Nat → σ → Option σ
  | rounds, s => do
    if (← test s) = 0 then return s
    else match rounds with
      | 0 => none
      | rounds + 1 => repeatUntilZero test step rounds (← step s)

section Rounds

variable {σ : Type} {test : σ → Option Int64} {step : σ → Option σ} {s : σ}

/-- A loop whose test gives zero is done. -/
theorem repeatUntilZero_of_zero (rounds : Nat) (h : test s = some 0) :
    repeatUntilZero test step rounds s = some s := by
  unfold repeatUntilZero
  simp [h]

theorem repeatUntilZero_zero {v : Int64} (h : test s = some v) (hv : v ≠ 0) :
    repeatUntilZero test step 0 s = none := by
  simp [repeatUntilZero, h, hv]

/-- One round, then the others. -/
theorem repeatUntilZero_succ {v : Int64} (rounds : Nat) (h : test s = some v) (hv : v ≠ 0) :
    repeatUntilZero test step (rounds + 1) s =
      (step s).bind (repeatUntilZero test step rounds) := by
  rw [repeatUntilZero, h]
  simp [hv]

end Rounds

namespace Linear

/-- The variables and what was printed. -/
structure State where
  store : Store
  output : Array Int64

namespace State

/-- Nothing was set or printed. -/
def initial : State := ⟨fun _ => 0, #[]⟩

/-- The value of an operand in a state. -/
def eval? (operand : Operand) (s : State) : Option Int64 := operand.eval? s.store

/-- Sets a variable. -/
def set (s : State) (name : String) (value : Int64) : State :=
  { s with store := fun other => if other = name then value else s.store other }

/-- Prints a word. -/
def print (s : State) (value : Int64) : State :=
  { s with output := s.output.push value }

/-- The state after an instruction that stands alone. Calls and returns have no meaning here. -/
def execute (s : State) : Instr → Option State
  | .declare name value | .assign name value => return s.set name (← s.eval? value)
  | .print value => return s.print (← s.eval? value)
  | .expr value => do
    let _ ← s.eval? value
    return s
  | _ => none

end State

/-- The state after a program, if no loop takes more than `bound` rounds. -/
def Body.run (bound : Nat) : Body → State → Option State
  | .nil, s => return s
  | .plain i _ rest, s => do rest.run bound (← s.execute i)
  | .conditional cond body rest, s => do
    if (← s.eval? cond) = 0 then rest.run bound s
    else rest.run bound (← body.run bound s)
  | .choice cond body other rest, s => do
    if (← s.eval? cond) = 0 then rest.run bound (← other.run bound s)
    else rest.run bound (← body.run bound s)
  | .loop cond body rest, s => do
    rest.run bound (← repeatUntilZero (State.eval? cond) (body.run bound) bound s)
  | .block body rest, s => do rest.run bound (← body.run bound s)

/-- Properly nested code halts and has printed the given words. -/
def HaltsWith (code : List Instr) (output : List Int64) : Prop :=
  ∃ program : Body, program.flatten = code ∧
    ∃ bound final, program.run bound .initial = some final ∧ final.output.toList = output

/-! ## Which code -/

namespace Instr

/-- The instruction neither calls nor belongs to a function, and its operands are words. -/
def IsCallFree : Instr → Prop
  | .declare _ value | .assign _ value | .print value | .expr value | .ifBegin value
  | .whileBegin value => value.IsWord
  | .elseMark | .endIf | .endWhile | .blockStart | .blockEnd => True
  | _ => False

instance : (i : Instr) → Decidable i.IsCallFree
  | .declare _ value | .assign _ value | .print value | .expr value | .ifBegin value
  | .whileBegin value => value.decidableIsWord
  | .elseMark | .endIf | .endWhile | .blockStart | .blockEnd => isTrue trivial
  | .call .. | .funcDecl .. | .endFunc | .ret _ | .macroDecl _ | .endMacro => isFalse nofun

/-- The names that must be declared before the instruction. -/
def uses (i : Instr) : List String :=
  let read := i.operands.flatMap Operand.reads
  match i with
  | .assign name _ => name :: read
  | _ => read

/-- The name that the instruction declares. -/
def declares : Instr → List String
  | .declare name _ => [name]
  | _ => []

end Instr

/-- Every name is declared before it is used, in the same sequence or in one around it. -/
def Body.Declared (known : List String) : Body → Prop
  | .nil => True
  | .plain i _ rest => i.uses ⊆ known ∧ rest.Declared (i.declares ++ known)
  | .conditional cond body rest | .loop cond body rest =>
    cond.reads ⊆ known ∧ body.Declared known ∧ rest.Declared known
  | .choice cond body other rest =>
    cond.reads ⊆ known ∧ body.Declared known ∧ other.Declared known ∧ rest.Declared known
  | .block body rest => body.Declared known ∧ rest.Declared known

instance Body.decidableDeclared (known : List String) :
    (body : Body) → Decidable (body.Declared known)
  | .nil => isTrue trivial
  | .plain i _ rest =>
    have := rest.decidableDeclared (i.declares ++ known)
    inferInstanceAs (Decidable (_ ∧ _))
  | .conditional _ body rest | .loop _ body rest | .block body rest =>
    have := body.decidableDeclared known
    have := rest.decidableDeclared known
    inferInstanceAs (Decidable (_ ∧ _))
  | .choice _ body other rest =>
    have := body.decidableDeclared known
    have := other.decidableDeclared known
    have := rest.decidableDeclared known
    inferInstanceAs (Decidable (_ ∧ _))

/-- Properly nested code declares every name before it is used. -/
def Declared (code : List Instr) : Prop :=
  ∃ program : Body, program.flatten = code ∧ program.Declared []

end Linear

end ImpMachine
