import ImpMachine.Proofs.Hoisting
import ImpMachine.Proofs.LoadValues

/-!
# The machine computes what folding computes

An operand of words has a value under the arithmetic of constants, the one that folding carries out
(`Operand.constant?`). Its code may stand anywhere in a program. Run with any words in the registers
it leaves this value in the destination, and the machine just behind its last byte
(`load_computes`). Of the other registers it changes only those that nobody holds, also where the
destination is the register of a variable that the operand reads.
-/

namespace ImpMachine

open Assembly RegisterMap List

variable {e : Operand} {store : Store} {v : Int64} {pieces : List Piece} {f : Memory → Memory}

/-! ## The arithmetic of constants -/

namespace Number

/-- A logical operator on constants. -/
def applyLogical (op : LogicalOp) (a b : Number) : Number :=
  match op with
  | .and => ofBool (!a.isZero && !b.isZero)
  | .or => ofBool (!a.isZero || !b.isZero)

theorem applyLogical_int (op : LogicalOp) (a b : Int64) :
    applyLogical op (.int a) (.int b) = .int (op.eval a b) := by
  cases op <;> simp [applyLogical, LogicalOp.eval, ofBool, isZero, truth]

theorem ofBool_isZero_int (a : Int64) : ofBool (isZero (.int a)) = .int (UnaryOp.eval .not a) := by
  simp [ofBool, isZero, UnaryOp.eval, truth]

end Number

namespace Operand

/-- The value of an operand in the arithmetic of constants, with constants for its variables. Texts
and calls have none. -/
def constant? (constants : String → Number) : Operand → Option Number
  | .number n => some n
  | .text _ | .call .. => none
  | .var name => some (constants name)
  | .binary op lhs rhs => return .apply op (← lhs.constant? constants) (← rhs.constant? constants)
  | .unary .neg operand => return .negate (← operand.constant? constants)
  | .unary .not operand => return .ofBool (← operand.constant? constants).isZero
  | .logical op lhs rhs =>
    return .applyLogical op (← lhs.constant? constants) (← rhs.constant? constants)

/-- On words the arithmetic of constants is that of words. -/
theorem IsWord.constant?_eq (h : e.IsWord)
    (hv : e.eval? store = some v) : e.constant? (fun x => .int (store x)) = some (.int v) := by
  induction h generalizing v with
  | int n =>
    cases hv
    rfl
  | var name =>
    cases hv
    rfl
  | binary op _ _ ihlhs ihrhs =>
    obtain ⟨a, b, ha, hb, rfl⟩ := eval?_binary_eq_some.1 hv
    simp [constant?, ihlhs ha, ihrhs hb, Number.apply, Number.applyWords_eq]
  | unary op _ ih =>
    obtain ⟨a, ha, rfl⟩ := eval?_unary_eq_some.1 hv
    cases op with
    | neg => simp [constant?, ih ha, Number.negate, UnaryOp.eval]
    | not => simp [constant?, ih ha, Number.ofBool_isZero_int]
  | logical op _ _ ihlhs ihrhs =>
    obtain ⟨a, b, ha, hb, rfl⟩ := eval?_logical_eq_some.1 hv
    simp [constant?, ihlhs ha, ihrhs hb, Number.applyLogical_int]

/-- If an operand folds to a constant, the constant is its value. -/
theorem IsWord.eq_of_fold_eq (h : e.IsWord) {n : Number} (hfold : e.fold = .number n)
    (hv : e.eval? store = some v) : n = .int v := by
  -- folding keeps the value, and a constant is its own
  obtain ⟨hword, heval⟩ := h.fold
  rw [← heval store] at hv
  rw [hfold] at hword hv
  cases hword
  cases hv
  rfl

end Operand

/-! ## Code without loops on the machine -/

/-- The registers and the output of a machine. -/
def Machine.memory (m : Machine) : Memory := ⟨m.registers, m.output⟩

theorem Machine.machine_memory {m : Machine} (h : m.status = .running) :
    m.memory.machine m.calls m.loops m.pc = m := by
  obtain ⟨registers, calls, loops, output, pc, status⟩ := m
  cases h
  rfl

theorem Machine.get_memory (m : Machine) (r : Register) : m.memory.get r = m.get r.byte := by
  simp [get, memory, Memory.get, r.byte_toNat]

/-- The machine runs such code from its first byte to its end. -/
theorem Computes.leads (h : Computes pieces f)
    (before after : Code) (mem : Memory) (calls : List Frame) (loops : List LoopEntry) :
    ∃ steps, (mem.machine calls loops before.length).Leads
      (before ++ (pieceBytes pieces ++ after)) steps
      ((f mem).machine calls loops (before.length + (pieceBytes pieces).length)) := by
  obtain ⟨t, rfl, hfits, hall, hrun⟩ := h
  rw [pieceBytes_plain, Shape.length_encodeAll_instructions]
  have hcode := CodeAt.of_encodeAll (Shape.valid_instructions hall) before after
  have hout := outcome_run 0 hfits hall hcode mem calls loops
  rwa [hrun] at hout

theorem Computes.fixup_eq_none (h : Computes pieces f) : ∀ p ∈ pieces, p.fixup = none := by
  obtain ⟨t, rfl, -⟩ := h
  intro p hp
  obtain ⟨i, -, rfl⟩ := mem_map.1 hp
  rfl

/-! ## Operands on the machine -/

/-- The words that variables have in the registers of a machine. -/
def RegisterMap.words (registers : RegisterMap) (key : String → String) (m : Machine) : Store :=
  fun x => ((registers.lookup (key x)).map fun r => m.get r.byte).getD 0

theorem agrees_words (registers : RegisterMap) (key : String → String) (names : List String)
    (m : Machine) : Agrees registers key names (registers.words key m) m.memory := by
  intro x _ r hr
  rw [m.get_memory, words, hr]
  rfl

/-- **The machine computes what folding computes.** The variables of an operand of words have
registers, and somebody holds the destination. If there is code for the operand, it waits for
nothing, and wherever it stands the machine runs through it: the destination then has the value of
the operand under the arithmetic of constants, which is the constant that the operand folds to if it
folds to one. Every other register that is held, the output and both stacks are as they were. -/
theorem load_computes {env : Environment} {e : Operand} {registers registers' : RegisterMap}
    {dst : Register} {pieces : List Piece} (he : e.IsWord)
    (hbinds : ∀ x ∈ e.reads, ∃ r, registers.lookup (env.key x) = some r)
    (hdst : ∃ holder, registers.holder dst = some holder)
    (h : load env e dst registers = .ok (pieces, registers')) :
    (∀ p ∈ pieces, p.fixup = none) ∧
      ∀ (before after : Code) (m : Machine), m.status = .running → m.pc = before.length →
        ∃ steps m', m.Leads (before ++ (pieceBytes pieces ++ after)) steps m' ∧
          m'.status = .running ∧ m'.pc = before.length + (pieceBytes pieces).length ∧
          e.constant? (fun x => .int (registers.words env.key m x)) =
            some (.int (m'.get dst.byte)) ∧
          (∀ n, e.fold = .number n → n = .int (m'.get dst.byte)) ∧
          (∀ r holder, registers.holder r = some holder → r ≠ dst →
            m'.get r.byte = m.get r.byte) ∧
          m'.output = m.output ∧ m'.loops = m.loops ∧ m'.calls = m.calls := by
  obtain ⟨-, f, hf, hstores⟩ := load_stores he hbinds hdst h
  refine ⟨hf.fixup_eq_none, fun before after m hrunning hpc => ?_⟩
  obtain ⟨steps, hleads⟩ := hf.leads before after m.memory m.calls m.loops
  rw [← hpc, Machine.machine_memory hrunning, hpc] at hleads
  -- the words that the variables have are read before the destination is written
  obtain ⟨v, hv⟩ := he.exists_eval? (registers.words env.key m)
  have hstored := hstores _ m.memory v (agrees_words registers env.key e.reads m) hv
  have hget (r : Register) : ((f m.memory).machine m.calls m.loops
      (before.length + (pieceBytes pieces).length)).get r.byte = (f m.memory).get r :=
    Memory.machine_get ..
  refine ⟨steps, _, hleads, rfl, rfl, ?_, fun n hn => ?_, fun r holder hr hne => ?_,
    hstored.output, rfl, rfl⟩
  · rw [hget, hstored.get]
    exact he.constant?_eq hv
  · rw [hget, hstored.get]
    exact he.eq_of_fold_eq hn hv
  · rw [hget, hstored.kept r ⟨holder, hr⟩ hne, m.get_memory]

/-- A function has a variable `x` of its own, and `y` is shared. -/
def ownVariable : Environment := ⟨⟨[], []⟩, some ⟨"f", ["x"]⟩⟩

/-- The register of `x`. -/
def ownRegister : Register := ⟨1, by decide⟩

/-- The register of `y`. -/
def sharedRegister : Register := ⟨2, by decide⟩

/-- Nothing else is held. -/
def ownAndShared : RegisterMap :=
  (RegisterMap.empty.take ownRegister (.named "f::x")).take sharedRegister (.named "y")

/-- The variables are `7` and `-3`. -/
def sevenAndLess : Machine := ((Machine.initial .running).set 1 7).set 2 (-3)

/-- The remainder goes to the register of the dividend. -/
theorem load_computes_ownVariable :
    ∃ pieces registers',
      load ownVariable (.binary .mod (.var "x") (.var "y")) ownRegister ownAndShared =
        .ok (pieces, registers') ∧
      ∃ steps m', sevenAndLess.Leads (pieceBytes pieces) steps m' ∧
        m'.pc = (pieceBytes pieces).length ∧ m'.get 1 = -2 ∧ m'.get 2 = -3 := by
  have hword : (Operand.binary .mod (.var "x") (.var "y")).IsWord := .binary _ (.var _) (.var _)
  have hbinds : ∀ x ∈ (Operand.binary .mod (.var "x") (.var "y")).reads,
      ∃ r, ownAndShared.lookup (ownVariable.key x) = some r :=
    forall_mem_cons.2 ⟨⟨ownRegister, rfl⟩, forall_mem_singleton.2 ⟨sharedRegister, rfl⟩⟩
  have hdst : ∃ holder, ownAndShared.holder ownRegister = some holder := ⟨_, rfl⟩
  obtain ⟨-, hruns⟩ := load_computes hword hbinds hdst rfl
  obtain ⟨steps, m', hleads, -, hpc, hvalue, -, hkept, -⟩ := hruns [] [] sevenAndLess rfl rfl
  refine ⟨_, _, rfl, steps, m', ?_, ?_, ?_, hkept sharedRegister (.named "y") rfl (by decide)⟩
  · rwa [append_nil] at hleads
  · rwa [length_nil, Nat.zero_add] at hpc
  · exact (Number.int.inj (Option.some.inj hvalue)).symm

end ImpMachine
