import ImpMachine.Proofs.Interpreter
import ImpMachine.Proofs.LoadShape

/-!
# Running a shape

A shape without calls can be run as a tree, on registers and output alone (`Shape.run`). The machine
does the same with offsets and a stack of loops (`outcome_run`): where the tree has a result the
machine gets behind the code with it, and where a loop of the tree takes more rounds than allowed
the machine goes on for at least as many steps.
-/

namespace ImpMachine

open Assembly List

variable {skip : UInt8}
variable {i : Instruction} {is : List Instruction} {pc n k base : Nat} {m m' : Machine}

/-! ## Registers and output -/

/-- The words of the registers and what was printed. -/
structure Memory where
  registers : RegisterFile
  output : Array Int64

namespace Memory

/-- The machine with this memory at an offset, in calls and loops. -/
def machine (mem : Memory) (calls : List Frame) (loops : List LoopEntry) (pc : Nat) : Machine :=
  ⟨mem.registers, calls, loops, mem.output, pc, .running⟩

/-- The word in a register. -/
def get (mem : Memory) (r : Register) : Int64 := getElem mem.registers r r.isLt

/-- The word that a test of a register gives. -/
def test (r : Register) (mem : Memory) : Option Int64 := some (mem.get r)

/-- The memory with a register set. -/
def set (mem : Memory) (r : Register) (value : Int64) : Memory :=
  { mem with registers := mem.registers.setIfInBounds r value }

/-- The memory with a word printed. -/
def print (mem : Memory) (value : Int64) : Memory :=
  { mem with output := mem.output.push value }

/-- The value of a source operand. -/
def value (mem : Memory) (source : Source) : Int64 := (mem.machine [] [] 0).value source

/-- The memory after an instruction. -/
def execute (mem : Memory) (i : Instruction) : Memory :=
  let m := (mem.machine [] [] 0).execute 0 i
  ⟨m.registers, m.output⟩

variable (mem : Memory)

/-- A register that is set has the word. -/
@[simp] theorem get_set_self (r : Register) (v : Int64) : (mem.set r v).get r = v := by
  simp [get, set]

/-- Setting a register keeps the others. -/
theorem get_set_of_ne {r r' : Register} (h : r ≠ r') (v : Int64) :
    (mem.set r v).get r' = mem.get r' := by
  simp [get, set, Fin.val_ne_of_ne h]

/-- A machine has the registers of its memory. -/
theorem machine_get (r : Register) (calls : List Frame) (loops : List LoopEntry) (pc : Nat) :
    (mem.machine calls loops pc).get r.byte = mem.get r := by
  simp [Machine.get, machine, get, r.byte_toNat]

@[simp] theorem value_regSource (r : Register) : mem.value (regSource r) = mem.get r :=
  mem.machine_get r [] [] 0

@[simp] theorem value_imm (v : UInt8) : mem.value (.imm v) = Int64.ofNat v.toNat := rfl

@[simp] theorem execute_mov (dst : Register) (v : UInt8) :
    mem.execute (mov dst v) = mem.set dst (Int64.ofNat v.toNat) := by
  simp [execute, mov, Machine.execute, Machine.set, Machine.advance, machine, set, dst.byte_toNat]

/-- Arithmetic sets its destination. -/
@[simp] theorem execute_arith (op : ArithOp) (dst : Register) (a b : Source) :
    mem.execute (arith op dst a b) = mem.set dst (op.apply (mem.value a) (mem.value b)) := by
  simp [execute, arith, Machine.execute, Machine.set, Machine.advance, machine, set, value,
    dst.byte_toNat]

@[simp] theorem execute_out (r : Register) : mem.execute (.out r.byte) = mem.print (mem.get r) := by
  simp only [execute, Machine.execute, machine_get]
  rfl

theorem machine_execute (h : i.IsSimple) (codeLength : Nat)
    (calls : List Frame) (loops : List LoopEntry) (pc : Nat) :
    (mem.machine calls loops pc).execute codeLength i =
      (mem.execute i).machine calls loops (pc + i.width) := by
  cases i with
  | mov | arith | out => rfl
  | _ => exact h.2.elim

end Memory

/-- The memory after a shape without calls, if no loop takes more than `bound` rounds. -/
def Shape.run (bound : Nat) : Shape → Memory → Option Memory
  | .nil, mem => return mem
  | .plain i _ rest, mem => rest.run bound (mem.execute i)
  | .conditional test body rest, mem => do
    if mem.get test = 0 then rest.run bound mem
    else rest.run bound (← body.run bound mem)
  | .choice test body other rest, mem => do
    if mem.get test = 0 then rest.run bound (← other.run bound mem)
    else rest.run bound (← body.run bound mem)
  | .loop test body rest, mem => do
    rest.run bound (← repeatUntilZero (Memory.test test) (body.run bound) bound mem)

/-- Running one shape after the other. -/
theorem Shape.run_append (bound : Nat) (s t : Shape) (mem : Memory) :
    (s.append t).run bound mem = (s.run bound mem).bind (t.run bound) := by
  induction s generalizing mem with
  | nil => rfl
  | plain i hi rest ih => exact ih _
  | conditional test body rest _ ih =>
    simp only [append, run]
    split
    · exact ih _
    · simp only [Option.bind_eq_bind, Option.bind_assoc, ih]
  | choice test body other rest _ _ ih =>
    simp only [append, run]
    split <;> simp only [Option.bind_eq_bind, Option.bind_assoc, ih]
  | loop test body rest _ ih =>
    simp only [append, run, Option.bind_eq_bind, Option.bind_assoc, ih]

/-- Instructions that stand one after the other run in that order. -/
theorem Shape.run_straight (bound : Nat) (h : ∀ i ∈ is, i.IsPlain)
    (mem : Memory) : (straight is h).run bound mem = some (is.foldl Memory.execute mem) := by
  induction is generalizing mem with
  | nil => rfl
  | cons i is ih => exact ih _ _

/-! ## Stretches of a run -/

namespace Machine

/-- Without a step limit the machine gets from one state to another in so many steps. -/
def Leads (code : Code) (steps : Nat) (m m' : Machine) : Prop :=
  ∀ config : RunConfig, config.maxSteps = none → ∀ s : Session, s.machine = m →
    ∃ s' : Session, s'.machine = m' ∧
      ∀ fuel, Session.runFor config code (steps + fuel) s = Session.runFor config code fuel s'

/-- Without a step limit the machine goes on for so many steps. -/
def Lasts (code : Code) (steps : Nat) (m : Machine) : Prop :=
  ∀ config : RunConfig, config.maxSteps = none → ∀ s : Session, s.machine = m →
    (Session.runFor config code steps s).2 = .unfinished

variable {code : Code} {m'' : Machine}

theorem Leads.refl (code : Code) (m : Machine) : Leads code 0 m m :=
  fun _ _ s hs => ⟨s, hs, fun fuel => by rw [Nat.zero_add]⟩

/-- One run after the other. -/
theorem Leads.trans (h : Leads code k m m') (h' : Leads code n m' m'') :
    Leads code (k + n) m m'' := by
  intro config hlimit s hs
  obtain ⟨s₁, hs₁, hrun₁⟩ := h config hlimit s hs
  obtain ⟨s₂, hs₂, hrun₂⟩ := h' config hlimit s₁ hs₁
  refine ⟨s₂, hs₂, fun fuel => ?_⟩
  rw [Nat.add_assoc, hrun₁, hrun₂]

theorem lt_length_of_decode (h : Instruction.decode code pc = .ok i) : pc < code.length := by
  obtain ⟨-, rest, hrest⟩ := Instruction.decode_eq_ok_iff.1 h
  have hlen := congrArg List.length hrest
  have hpos := i.width_pos
  simp only [length_drop, length_append, Instruction.length_encode] at hlen
  omega

theorem isActive_of_decode {s : Session} (hs : s.machine.status = .running)
    (h : Instruction.decode code s.machine.pc = .ok i) : s.isActive code = true :=
  Session.isActive_iff.2 ⟨hs, lt_length_of_decode h⟩

/-- One instruction. -/
theorem leads_execute (hrunning : m.status = .running)
    (hdecode : Instruction.decode code m.pc = .ok i) (hcall : ∀ addr, i ≠ .call addr) :
    Leads code 1 m (m.execute code.length i) := by
  intro config hlimit s hs
  subst hs
  have hdeep : Session.isTooDeep config s.machine i = false := by
    cases i with
    | call addr => exact (hcall addr rfl).elim
    | _ => rfl
  have hbroken : Session.brokenLimit? config (s.steps + 1) = none := by
    rw [Session.brokenLimit?, hlimit]
    rfl
  have hstep := Session.step_eq_ok_iff.2 ⟨hbroken, i, hdecode, hdeep, rfl⟩
  refine ⟨{ s with steps := s.steps + 1 }.take config code i, rfl, fun fuel => ?_⟩
  rw [Nat.add_comm, Session.runFor_succ fuel (isActive_of_decode hrunning hdecode), hstep]

theorem lasts_zero (hrunning : m.status = .running)
    (hdecode : Instruction.decode code m.pc = .ok i) : Lasts code 0 m := by
  intro config hlimit s hs
  subst hs
  rw [Session.runFor_zero (isActive_of_decode hrunning hdecode)]

theorem Leads.lasts (h : Leads code k m m') (h' : Lasts code n m') : Lasts code (k + n) m := by
  intro config hlimit s hs
  obtain ⟨s', hs', hrun⟩ := h config hlimit s hs
  rw [hrun]
  exact h' config hlimit s' hs'

end Machine

/-- A run that is not finished was not finished a step before. -/
theorem Session.unfinished_of_succ {config : RunConfig} {code : Code} {s : Session}
    (h : (runFor config code (n + 1) s).2 = .unfinished) :
    (runFor config code n s).2 = .unfinished := by
  induction n generalizing s with
  | zero =>
    cases hactive : s.isActive code with
    | false =>
      rw [runFor_of_not_isActive _ hactive] at h
      cases h
    | true => rw [runFor_zero hactive]
  | succ n ih =>
    cases hactive : s.isActive code with
    | false =>
      rw [runFor_of_not_isActive _ hactive] at h
      cases h
    | true =>
      rw [runFor_succ _ hactive] at h ⊢
      rcases hstep : s.step config code with ⟨s', fault | ok⟩
      · rw [hstep] at h
        exact h
      · rw [hstep] at h
        exact ih h

theorem Machine.Lasts.mono {code : Code} (h : Lasts code n m) (hle : k ≤ n) : Lasts code k m := by
  induction n with
  | zero =>
    obtain rfl := Nat.le_zero.1 hle
    exact h
  | succ n ih =>
    rcases Nat.le_succ_iff.1 hle with hle | rfl
    · exact ih (fun config hlimit s hs => Session.unfinished_of_succ (h config hlimit s hs)) hle
    · exact h

/-! ## Instructions of constructs -/

namespace Memory

open Machine

variable {code : Code} (mem : Memory) (calls : List Frame) (loops : List LoopEntry)
variable {test : Register}

/-- A simple instruction is one step. -/
theorem leads_simple (hdecode : Instruction.decode code pc = .ok i) (hi : i.IsSimple) :
    Leads code 1 (mem.machine calls loops pc)
      ((mem.execute i).machine calls loops (pc + i.width)) := by
  rw [← mem.machine_execute hi code.length]
  refine leads_execute rfl hdecode ?_
  rintro addr rfl
  exact hi.2.elim

theorem leads_ifZero (hdecode : Instruction.decode code pc = .ok (.ifZero test.byte skip)) :
    Leads code 1 (mem.machine calls loops pc)
      (mem.machine calls loops (if mem.get test = 0 then pc + 3 + skip.toNat else pc + 3)) := by
  have hstep := leads_execute (m := mem.machine calls loops pc) rfl hdecode nofun
  simp only [Machine.execute, machine_get] at hstep
  split at hstep <;> rename_i htest
  · rw [if_pos htest]
    exact hstep
  · rw [if_neg htest]
    exact hstep

theorem leads_jump {distance : UInt8}
    (hdecode : Instruction.decode code pc = .ok (.jump distance)) :
    Leads code 1 (mem.machine calls loops pc) (mem.machine calls loops (pc + 2 + distance.toNat)) :=
  leads_execute (m := mem.machine calls loops pc) rfl hdecode nofun

theorem leads_endIf (hdecode : Instruction.decode code pc = .ok .endIf) :
    Leads code 1 (mem.machine calls loops pc) (mem.machine calls loops (pc + 1)) :=
  leads_execute (m := mem.machine calls loops pc) rfl hdecode nofun

theorem leads_whileLoop_of_zero
    (hdecode : Instruction.decode code pc = .ok (.whileLoop test.byte skip))
    (htest : mem.get test = 0) :
    Leads code 1 (mem.machine calls loops pc) (mem.machine calls loops (pc + 3 + skip.toNat)) := by
  have hstep := leads_execute (m := mem.machine calls loops pc) rfl hdecode nofun
  simp only [Machine.execute, machine_get, if_pos htest] at hstep
  exact hstep

theorem leads_whileLoop_of_ne_zero
    (hdecode : Instruction.decode code pc = .ok (.whileLoop test.byte skip))
    (htest : mem.get test ≠ 0) :
    Leads code 1 (mem.machine calls loops pc)
      (mem.machine calls (⟨test.byte, pc⟩ :: loops) (pc + 3)) := by
  have hstep := leads_execute (m := mem.machine calls loops pc) rfl hdecode nofun
  simp only [Machine.execute, machine_get, if_neg htest] at hstep
  exact hstep

/-- The end of a loop goes on or back. -/
theorem leads_endWhile {start : Nat} (hdecode : Instruction.decode code pc = .ok .endWhile) :
    Leads code 1 (mem.machine calls (⟨test.byte, start⟩ :: loops) pc)
      (mem.machine calls loops (if mem.get test = 0 then pc + 1 else start)) := by
  have hstep := leads_execute (m := mem.machine calls (⟨test.byte, start⟩ :: loops) pc) rfl hdecode
    nofun
  rw [execute_endWhile_of_cons _ rfl, machine_get] at hstep
  exact hstep

end Memory

/-! ## The machine runs the tree -/

/-- The instructions stand in the code from an offset on. -/
def CodeAt (code : Code) (base : Nat) (is : List Instruction) : Prop :=
  ∀ d ∈ place base is, Instruction.decode code d.offset = .ok d.instruction

namespace CodeAt

variable {code : Code} {js : List Instruction}

/-- The first instruction is read at the base. -/
theorem head (h : CodeAt code base (i :: is)) : Instruction.decode code base = .ok i :=
  h ⟨base, i⟩ (mem_cons_self ..)

theorem tail (h : CodeAt code base (i :: is)) : CodeAt code (base + i.width) is :=
  fun d hd => h d (mem_cons_of_mem _ hd)

/-- Code of two parts stands one behind the other. -/
theorem append (h : CodeAt code base (is ++ js)) :
    CodeAt code base is ∧ CodeAt code (base + (encodeAll is).length) js := by
  unfold CodeAt at h
  rw [place_append] at h
  exact forall_mem_append.1 h

/-- Instructions stand where their bytes do, whatever is around them. -/
theorem of_encodeAll (hvalid : ∀ i ∈ is, i.Valid) (before after : Code) :
    CodeAt (before ++ (encodeAll is ++ after)) before.length is := by
  induction is generalizing before with
  | nil => exact forall_mem_nil _
  | cons i is ih =>
    obtain ⟨hi, his⟩ := forall_mem_cons.1 hvalid
    refine forall_mem_cons.2 ⟨?_, ?_⟩
    · exact Instruction.decode_eq_ok_iff.2 ⟨hi, encodeAll is ++ after, by simp⟩
    · have htail := ih his (before ++ i.encode)
      simp only [length_append, Instruction.length_encode, append_assoc] at htail
      rwa [encodeAll_cons, append_assoc]

end CodeAt

/-- Simple instructions have bytes of their own. -/
theorem Shape.valid_instructions {s : Shape} (hall : s.All Instruction.IsSimple) :
    ∀ i ∈ s.instructions, i.Valid :=
  forall_mem_instructions (hall.mono fun _ h => h.1) (fun r _ => r.byte_lt) (fun _ => trivial)
    (fun r _ => r.byte_lt) trivial trivial

/-- The machine gets from a state to an offset with the memory of the result, or without a result
goes on for so many steps. -/
def Outcome (code : Code) (steps : Nat) (m : Machine) (calls : List Frame)
    (loops : List LoopEntry) (stop : Nat) : Option Memory → Prop
  | some mem => ∃ k, m.Leads code k (mem.machine calls loops stop)
  | none => m.Lasts code steps

namespace Outcome

variable {code : Code} {mid stop : Nat} {calls : List Frame} {loops loops' : List LoopEntry}
variable {x : Option Memory}

theorem mono (h : Outcome code n m calls loops stop x) (hle : k ≤ n) :
    Outcome code k m calls loops stop x := by
  cases x with
  | some mem => exact h
  | none => exact Machine.Lasts.mono h hle

theorem of_leads (h : m.Leads code k m') (h' : Outcome code n m' calls loops stop x) :
    Outcome code (k + n) m calls loops stop x := by
  cases x with
  | some mem =>
    obtain ⟨k', h'⟩ := h'
    exact ⟨k + k', h.trans h'⟩
  | none => exact h.lasts h'

theorem of_leads' (h : m.Leads code k m') (h' : Outcome code n m' calls loops stop x) :
    Outcome code n m calls loops stop x :=
  (of_leads h h').mono (Nat.le_add_left ..)

theorem bind {f : Memory → Option Memory} (h : Outcome code n m calls loops mid x)
    (hf : ∀ mem, Outcome code n (mem.machine calls loops mid) calls loops' stop (f mem)) :
    Outcome code n m calls loops' stop (x.bind f) := by
  cases x with
  | some mem =>
    obtain ⟨k, h⟩ := h
    exact of_leads' h (hf mem)
  | none => exact h

end Outcome

/-- Every round takes a step at least, so a loop that is cut off lasts. -/
theorem outcome_repeatUntilZero {code : Code} {bound rounds : Nat} {test : Register}
    {body : Memory → Option Memory} {size : Nat} {calls : List Frame} {loops : List LoopEntry}
    (hhead : Instruction.decode code base = .ok (.whileLoop test.byte skip))
    (hskip : skip.toNat = size + 1)
    (hlast : Instruction.decode code (base + 3 + size) = .ok .endWhile)
    (hbody : ∀ mem, Outcome code bound (mem.machine calls (⟨test.byte, base⟩ :: loops) (base + 3))
      calls (⟨test.byte, base⟩ :: loops) (base + 3 + size) (body mem)) (hrounds : rounds ≤ bound)
    (mem : Memory) :
    Outcome code rounds (mem.machine calls loops base) calls loops (base + 3 + size + 1)
      (repeatUntilZero (Memory.test test) body rounds mem) := by
  by_cases htest : mem.get test = 0
  · have hzero : Memory.test test mem = some 0 := congrArg some htest
    rw [repeatUntilZero_of_zero rounds hzero]
    have hleave := mem.leads_whileLoop_of_zero calls loops hhead htest
    rw [hskip, ← Nat.add_assoc] at hleave
    exact ⟨1, hleave⟩
  have htested : Memory.test test mem = some (mem.get test) := rfl
  have henter := mem.leads_whileLoop_of_ne_zero calls loops hhead htest
  induction rounds generalizing mem with
  | zero =>
    rw [repeatUntilZero_zero htested htest]
    exact Machine.lasts_zero rfl hhead
  | succ rounds ih =>
    rw [repeatUntilZero_succ rounds htested htest]
    have hround := hbody mem
    cases hres : body mem with
    | none =>
      -- a loop inside is cut off already
      rw [hres] at hround
      exact (henter.lasts hround).mono (by omega)
    | some next =>
      rw [hres] at hround
      obtain ⟨k, hround⟩ := hround
      have hback := (henter.trans hround).trans (next.leads_endWhile calls loops hlast)
      rw [Option.bind_some]
      by_cases hnext : next.get test = 0
      · -- the end mark tests the register too, and leaves the loop at once
        have hzero : Memory.test test next = some 0 := congrArg some hnext
        rw [if_pos hnext] at hback
        rw [repeatUntilZero_of_zero rounds hzero]
        exact ⟨_, hback⟩
      · rw [if_neg hnext] at hback
        have hrest := ih (by omega) next hnext rfl
          (next.leads_whileLoop_of_ne_zero calls loops hhead hnext)
        exact (Outcome.of_leads hback hrest).mono (by omega)

/-- **The machine runs a shape as the tree runs.** -/
theorem outcome_run {code : Code} (bound : Nat) {s : Shape} (hfits : s.Fits)
    (hall : s.All Instruction.IsSimple) (hcode : CodeAt code base s.instructions) (mem : Memory)
    (calls : List Frame) (loops : List LoopEntry) :
    Outcome code bound (mem.machine calls loops base) calls loops (base + s.size)
      (s.run bound mem) := by
  induction s generalizing base mem loops with
  | nil => exact ⟨0, Machine.Leads.refl code _⟩
  | plain i hi rest ih =>
    have hrest := ih hfits hall.2 hcode.tail (mem.execute i) loops
    rw [Nat.add_assoc] at hrest
    exact .of_leads' (mem.leads_simple calls loops hcode.head hall.1) hrest
  | conditional test body rest ihbody ihrest =>
    obtain ⟨hlen, hbfits, hrfits⟩ := hfits
    obtain ⟨hbcode, hrcode⟩ := hcode.tail.append
    rw [Shape.length_encodeAll_instructions] at hrcode
    have hskip := toNat_ofNat_of_le hlen
    have hhead := mem.leads_ifZero calls loops hcode.head
    -- both ways lead to the end mark
    have hrest : ∀ mem : Memory, Outcome code bound
        (mem.machine calls loops (base + 3 + body.size)) calls loops
        (base + (Shape.conditional test body rest).size) (rest.run bound mem) := by
      intro mem
      have hrest := ihrest hrfits hall.2 hrcode.tail mem loops
      rw [show base + (Shape.conditional test body rest).size =
        base + 3 + body.size + 1 + rest.size by simp only [Shape.size]; omega]
      exact .of_leads' (mem.leads_endIf calls loops hrcode.head) hrest
    rw [Shape.run]
    split <;> rename_i htest
    · rw [if_pos htest, hskip] at hhead
      exact .of_leads' hhead (hrest mem)
    · rw [if_neg htest] at hhead
      exact .of_leads' hhead ((ihbody hbfits hall.1 hbcode mem loops).bind hrest)
  | choice test body other rest ihbody ihother ihrest =>
    obtain ⟨hlen, hlen', hbfits, hofits, hrfits⟩ := hfits
    obtain ⟨hbcode, hmcode⟩ := hcode.tail.append
    rw [Shape.length_encodeAll_instructions] at hmcode
    obtain ⟨hocode, hrcode⟩ := hmcode.tail.append
    rw [Shape.length_encodeAll_instructions] at hrcode
    have hhead := mem.leads_ifZero calls loops hcode.head
    have hrest : ∀ mem : Memory, Outcome code bound
        (mem.machine calls loops (base + 3 + body.size + 2 + other.size)) calls loops
        (base + (Shape.choice test body other rest).size) (rest.run bound mem) := by
      intro mem
      have hrest := ihrest hrfits hall.2.2 hrcode.tail mem loops
      rw [show base + (Shape.choice test body other rest).size =
        base + 3 + body.size + 2 + other.size + 1 + rest.size by simp only [Shape.size]; omega]
      exact .of_leads' (mem.leads_endIf calls loops hrcode.head) hrest
    -- behind the first branch the jump leads there too
    have hjump : ∀ mem : Memory, Outcome code bound (mem.machine calls loops (base + 3 + body.size))
        calls loops (base + (Shape.choice test body other rest).size) (rest.run bound mem) := by
      intro mem
      have hjump := mem.leads_jump calls loops hmcode.head
      rw [toNat_ofNat_of_le hlen'] at hjump
      exact .of_leads' hjump (hrest mem)
    rw [Shape.run]
    split <;> rename_i htest
    · rw [if_pos htest, toNat_ofNat_of_le hlen, ← Nat.add_assoc] at hhead
      exact .of_leads' hhead ((ihother hofits hall.2.1 hocode mem loops).bind hrest)
    · rw [if_neg htest] at hhead
      exact .of_leads' hhead ((ihbody hbfits hall.1 hbcode mem loops).bind hjump)
  | loop test body rest ihbody ihrest =>
    obtain ⟨hlen, hbfits, hrfits⟩ := hfits
    obtain ⟨hbcode, hrcode⟩ := hcode.tail.append
    rw [Shape.length_encodeAll_instructions] at hrcode
    have hloop := outcome_repeatUntilZero hcode.head (toNat_ofNat_of_le hlen) hrcode.head
      (fun mem => ihbody hbfits hall.1 hbcode mem (⟨test.byte, base⟩ :: loops)) (Nat.le_refl bound)
      mem
    rw [show base + (Shape.loop test body rest).size =
      base + 3 + body.size + 1 + rest.size by simp only [Shape.size]; omega]
    exact hloop.bind fun mem => ihrest hrfits hall.2 hrcode.tail mem loops

end ImpMachine
