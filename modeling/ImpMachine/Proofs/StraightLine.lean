import ImpMachine.Proofs.OperandRun

/-!
# Straight code on the machine

Instructions that only compute or print and stand one after the other, anywhere in a program. The
machine takes one step for each of them and is then just behind the last (`leads_behind`).

Whether an operation wraps on the way depends on the words that the instructions before it left
(`Memory.ExactAll`). Where none does, the machine meets every instruction in a state in which its
result on words is its result on integers (`runsExactly_behind`).
-/

namespace ImpMachine

open Assembly List

/-! ## Wrapping -/

namespace ArithOp

/-- The operation on integers, which have no bounds. -/
def exact : ArithOp → Int → Int → Int
  | .add, a, b => a + b
  | .sub, a, b => a - b
  | .mul, a, b => a * b
  | .div, a, b => a.fdiv b

/-- The result on words is that on integers: nothing wraps. -/
def IsExact (op : ArithOp) (a b : Int64) : Prop :=
  (op.apply a b).toInt = op.exact a.toInt b.toInt

theorem toInt_apply (op : ArithOp) (a b : Int64) :
    (op.apply a b).toInt = (op.exact a.toInt b.toInt).bmod Int64.size := by
  cases op with
  | add => exact Int64.toInt_add a b
  | sub => exact Int64.toInt_sub a b
  | mul => exact Int64.toInt_mul a b
  | div => exact Int64.toInt_ofInt

/-- A result between the bounds does not wrap. -/
theorem isExact_of_bounds {op : ArithOp} {a b : Int64}
    (hlow : -9223372036854775808 ≤ op.exact a.toInt b.toInt)
    (hhigh : op.exact a.toInt b.toInt < 9223372036854775808) : op.IsExact a b := by
  rw [IsExact, toInt_apply, bmod_size_of_bounds hlow hhigh]

theorem isExact_div {a b : Int64} (hb : 0 < b.toInt) : IsExact .div a b := by
  rw [IsExact, exact, Int.fdiv_eq_ediv_of_nonneg _ (Int.le_of_lt hb)]
  exact toInt_floorDiv hb

end ArithOp

/-- The machine executes the instruction without wrapping. -/
def Machine.IsExact (m : Machine) : Instruction → Prop
  | .arith op _ a b => op.IsExact (m.value a) (m.value b)
  | _ => True

namespace Memory

/-- The instructions are executed one after the other without wrapping. -/
def ExactAll (mem : Memory) : List Instruction → Prop
  | [] => True
  | i :: is => (mem.machine [] [] 0).IsExact i ∧ (mem.execute i).ExactAll is

variable (mem : Memory)

@[simp] theorem exactAll_nil : mem.ExactAll [] := trivial

@[simp] theorem exactAll_mov_cons (dst : Register) (v : UInt8) (is : List Instruction) :
    mem.ExactAll (mov dst v :: is) ↔ (mem.set dst (Int64.ofNat v.toNat)).ExactAll is := by
  rw [ExactAll, execute_mov]
  exact and_iff_right trivial

/-- Arithmetic first, then what follows. -/
@[simp] theorem exactAll_arith_cons (op : ArithOp) (dst : Register) (a b : Source)
    (is : List Instruction) :
    mem.ExactAll (arith op dst a b :: is) ↔ op.IsExact (mem.value a) (mem.value b) ∧
      (mem.set dst (op.apply (mem.value a) (mem.value b))).ExactAll is := by
  rw [ExactAll, execute_arith]
  rfl

/-- One part after the other, without wrapping. -/
@[simp] theorem exactAll_append (is js : List Instruction) :
    mem.ExactAll (is ++ js) ↔ mem.ExactAll is ∧ (mem.executeAll is).ExactAll js := by
  induction is generalizing mem with
  | nil => exact (and_iff_right trivial).symm
  | cons i is ih => rw [cons_append, ExactAll, ExactAll, ih, and_assoc, executeAll_cons]

end Memory

/-! ## Running through -/

namespace Machine

/-- The machine just behind instructions that stand one after the other. -/
def behind (m : Machine) (is : List Instruction) : Machine :=
  (m.memory.executeAll is).machine m.calls m.loops (m.pc + (encodeAll is).length)

/-- The machine gets from one state to another by a step for each instruction, and none wraps. -/
structure RunsExactly (code : Code) (is : List Instruction) (m m' : Machine) : Prop where
  /-- Before each instruction the machine stands at it, and will execute it without wrapping. -/
  reaches : ∀ front i back, is = front ++ i :: back → ∃ mid, m.Leads code front.length mid ∧
    mid.status = .running ∧ Instruction.decode code mid.pc = .ok i ∧ mid.IsExact i
  leads : m.Leads code is.length m'

variable {m : Machine} {is : List Instruction} {code before after : Code}

theorem get_behind (m : Machine) (is : List Instruction) (r : Register) :
    (m.behind is).get r.byte = (m.memory.executeAll is).get r :=
  Memory.machine_get ..

theorem value_memory (m : Machine) (source : Source) : m.memory.value source = m.value source := by
  cases source <;> rfl

theorem behind_append (m : Machine) (front back : List Instruction) :
    m.behind (front ++ back) = (m.behind front).behind back := by
  simp only [behind, Memory.executeAll_append, encodeAll_append, length_append]
  rw [← Nat.add_assoc]
  rfl

theorem isExact_memory (m : Machine) (i : Instruction) :
    (m.memory.machine [] [] 0).IsExact i ↔ m.IsExact i := by
  cases i with
  | arith op dst a b =>
    have hvalue (source : Source) : (m.memory.machine [] [] 0).value source = m.value source :=
      m.value_memory source
    rw [IsExact, IsExact, hvalue, hvalue]
  | _ => exact Iff.rfl

/-- **One step for each instruction.** -/
theorem leads_behind (hsimple : ∀ i ∈ is, i.IsSimple) (hrunning : m.status = .running)
    (hcode : CodeAt code m.pc is) : m.Leads code is.length (m.behind is) := by
  induction is generalizing m with
  | nil =>
    rw [show m.behind [] = m from machine_memory hrunning]
    exact .refl code m
  | cons i is ih =>
    obtain ⟨hi, his⟩ := forall_mem_cons.1 hsimple
    have hfirst := m.memory.leads_simple m.calls m.loops hcode.head hi
    rw [machine_memory hrunning] at hfirst
    have hbehind : m.behind [i] = (m.memory.execute i).machine m.calls m.loops (m.pc + i.width) := by
      simp [behind]
    rw [← hbehind] at hfirst
    have hrest := ih (m := m.behind [i]) his rfl (by rw [hbehind]; exact hcode.tail)
    rw [← behind_append] at hrest
    rw [length_cons, Nat.add_comm]
    exact hfirst.trans hrest

/-- The instructions may stand anywhere in a program. -/
theorem codeAt_of_pc (hsimple : ∀ i ∈ is, i.IsSimple) (hpc : m.pc = before.length) :
    CodeAt (before ++ (encodeAll is ++ after)) m.pc is := by
  rw [hpc]
  exact .of_encodeAll (fun i hi => (hsimple i hi).1) before after

/-- **The machine meets every instruction without wrapping.** -/
theorem runsExactly_behind (hsimple : ∀ i ∈ is, i.IsSimple) (hexact : m.memory.ExactAll is)
    (hrunning : m.status = .running) (hcode : CodeAt code m.pc is) :
    m.RunsExactly code is (m.behind is) := by
  refine ⟨fun front i back heq => ?_, leads_behind hsimple hrunning hcode⟩
  subst heq
  obtain ⟨hfront, hback⟩ := hcode.append
  refine ⟨m.behind front, leads_behind (fun j hj => hsimple j (mem_append_left _ hj)) hrunning
    hfront, rfl, hback.head, ?_⟩
  have hi := ((m.memory.exactAll_append front (i :: back)).1 hexact).2.1
  exact (isExact_memory (m.behind front) i).1 hi

end Machine

end ImpMachine
