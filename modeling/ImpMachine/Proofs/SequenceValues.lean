import ImpMachine.Proofs.ShapeRun

/-!
# What the fixed sequences compute

The sequences for constants, remainders, comparisons and the logical operators leave the right word
in their destination, and write nothing else but the registers they are given for intermediate
values. The comparison is exact although the difference of two words need not be a word: half the
difference, rounded down, always is one (`truth_lt`).
-/

namespace ImpMachine

open Assembly Arithmetic

variable {r dst : Register}

/-! ## Words -/

/-- An integer in the range of words does not wrap. -/
theorem bmod_size_of_bounds {x : Int} (hlow : -9223372036854775808 ≤ x)
    (hhigh : x < 9223372036854775808) : x.bmod Int64.size = x := by
  have hsize : (Int64.size : Int) = 18446744073709551616 := rfl
  exact Int.bmod_eq_of_le (by omega) (by omega)

/-- Division by a positive word does not wrap. -/
theorem toInt_floorDiv {a b : Int64} (hb : 0 < b.toInt) :
    (floorDiv a b).toInt = a.toInt / b.toInt := by
  have hlow := a.le_toInt
  have hhigh := a.toInt_lt
  have habs := Int.natAbs_ediv_le_natAbs a.toInt b.toInt
  have hsign : 0 ≤ a.toInt ∧ 0 ≤ a.toInt / b.toInt ∨ a.toInt < 0 ∧ a.toInt / b.toInt < 0 := by
    rcases Int.lt_or_le a.toInt 0 with ha | ha
    · exact .inr ⟨ha, Int.ediv_neg_of_neg_of_pos ha hb⟩
    · exact .inl ⟨ha, Int.ediv_nonneg ha (Int.le_of_lt hb)⟩
  rw [floorDiv, Int64.toInt_ofInt, Int.fdiv_eq_ediv_of_nonneg _ (Int.le_of_lt hb)]
  exact bmod_size_of_bounds (by omega) (by omega)

/-- Halving rounds down. -/
theorem toInt_floorDiv_two (a : Int64) : (floorDiv a 2).toInt = a.toInt / 2 :=
  toInt_floorDiv (by decide)

/-- The remainder by two is the parity. -/
theorem toInt_floorMod_two (a : Int64) : (floorMod a 2).toInt = a.toInt % 2 := by
  have hlow := a.le_toInt
  have hhigh := a.toInt_lt
  have htwo : (2 : Int64).toInt = 2 := rfl
  have hprod : (floorDiv a 2 * 2).toInt = a.toInt / 2 * 2 := by
    rw [Int64.toInt_mul, toInt_floorDiv_two, htwo]
    exact bmod_size_of_bounds (by omega) (by omega)
  rw [floorMod, Int64.toInt_sub, hprod, bmod_size_of_bounds (by omega) (by omega)]
  omega

/-- Half the difference of two words, rounded down, from their halves and parities. -/
def halfDifference (a b : Int64) : Int64 :=
  floorDiv (floorMod a 2 - floorMod b 2) 2 + floorDiv a 2 - floorDiv b 2

theorem toInt_halfDifference (a b : Int64) :
    (halfDifference a b).toInt = (a.toInt - b.toInt) / 2 := by
  have halow := a.le_toInt
  have hahigh := a.toInt_lt
  have hblow := b.le_toInt
  have hbhigh := b.toInt_lt
  have hparity : (floorMod a 2 - floorMod b 2).toInt = a.toInt % 2 - b.toInt % 2 := by
    rw [Int64.toInt_sub, toInt_floorMod_two, toInt_floorMod_two]
    exact bmod_size_of_bounds (by omega) (by omega)
  have hsum : (floorDiv (floorMod a 2 - floorMod b 2) 2 + floorDiv a 2).toInt =
      (a.toInt % 2 - b.toInt % 2) / 2 + a.toInt / 2 := by
    rw [Int64.toInt_add, toInt_floorDiv_two, toInt_floorDiv_two, hparity]
    exact bmod_size_of_bounds (by omega) (by omega)
  rw [halfDifference, Int64.toInt_sub, hsum, toInt_floorDiv_two,
    bmod_size_of_bounds (by omega) (by omega)]
  omega

/-- The divisor that leaves little more than the sign of a word. -/
def signDivisor : Int64 := 4611686018427387904

/-- **The sign of half the difference is the comparison.** -/
theorem truth_lt (a b : Int64) :
    0 - floorDiv (floorDiv (halfDifference a b) signDivisor) 4 = truth (a < b) := by
  have halow := a.le_toInt
  have hahigh := a.toInt_lt
  have hblow := b.le_toInt
  have hbhigh := b.toInt_lt
  have hdivisor : signDivisor.toInt = 4611686018427387904 := by decide
  have hfour : (4 : Int64).toInt = 4 := rfl
  have hsign : (floorDiv (floorDiv (halfDifference a b) signDivisor) 4).toInt =
      (a.toInt - b.toInt) / 2 / 4611686018427387904 / 4 := by
    rw [toInt_floorDiv (by decide), toInt_floorDiv (by decide), toInt_halfDifference, hdivisor,
      hfour]
  rw [← Int64.toInt_inj, Int64.toInt_sub, hsign]
  have hzero : (0 : Int64).toInt = 0 := rfl
  have hone : (1 : Int64).toInt = 1 := rfl
  rw [hzero, bmod_size_of_bounds (by omega) (by omega)]
  -- half the difference is between `-2 ^ 63` and `2 ^ 63`, so its quotient is `-1` or `0`
  by_cases hlt : a < b
  · have hlt' := Int64.lt_iff_toInt_lt.1 hlt
    simp only [truth, hlt, decide_true, if_true, hone]
    omega
  · have hle := Int64.le_iff_toInt_le.1 (Int64.not_lt.1 hlt)
    simp only [truth, hlt, decide_false, Bool.false_eq_true, if_false, hzero]
    omega

/-- A comparison the other way is the opposite. -/
theorem one_sub_truth_lt (a b : Int64) : 1 - truth (a < b) = truth (b ≤ a) := by
  by_cases hlt : a < b
  · simp [truth, hlt, Int64.not_le.2 hlt]
  · simp [truth, hlt, Int64.not_lt.1 hlt]

/-! ## Memories -/

namespace Memory

/-- The memory after instructions that stand one after the other. -/
def executeAll (mem : Memory) (is : List Instruction) : Memory := is.foldl execute mem

/-- Nothing was printed, and only the given registers may have changed. -/
def Keeps (written : List Register) (mem mem' : Memory) : Prop :=
  mem'.output = mem.output ∧ ∀ r ∉ written, mem'.get r = mem.get r

variable {written : List Register} (mem : Memory)

@[simp] theorem executeAll_nil : mem.executeAll [] = mem := rfl

@[simp] theorem executeAll_cons (i : Instruction) (is : List Instruction) :
    mem.executeAll (i :: is) = (mem.execute i).executeAll is := rfl

/-- Instructions are executed one part after the other. -/
@[simp] theorem executeAll_append (is js : List Instruction) :
    mem.executeAll (is ++ js) = (mem.executeAll is).executeAll js :=
  List.foldl_append

@[simp] theorem set_set (r : Register) (v w : Int64) : (mem.set r v).set r w = mem.set r w := by
  simp [set]

/-- Setting a register keeps the other operands. -/
theorem value_set_of_ne {source : Source} (h : source ≠ regSource r) (v : Int64) :
    (mem.set r v).value source = mem.value source := by
  cases source with
  | imm => rfl
  | reg byte =>
    have hne : r.val ≠ byte.toNat := by
      intro heq
      refine h (congrArg Source.reg (UInt8.toNat_inj.1 ?_))
      rw [r.byte_toNat, heq]
    simp [value, Machine.value, Machine.get, machine, set, Vector.getElem?_setIfInBounds_ne hne]

variable {mem}

theorem Keeps.set {mem' : Memory} (h : Keeps written mem mem')
    (hr : r ∈ written) (v : Int64) : Keeps written mem (mem'.set r v) := by
  refine ⟨h.1, fun r' hr' => ?_⟩
  have hne : r ≠ r' := fun heq => hr' (heq ▸ hr)
  rw [get_set_of_ne _ hne, h.2 r' hr']

theorem keeps_refl (written : List Register) (mem : Memory) : Keeps written mem mem :=
  ⟨rfl, fun _ _ => rfl⟩

/-- All that the instruction does is to write one of the given registers. -/
def WritesIn (written : List Register) (i : Instruction) : Prop :=
  ∃ dst ∈ written, ∀ mem : Memory, ∃ v, mem.execute i = mem.set dst v

theorem writesIn_mov (h : dst ∈ written) (v : UInt8) : WritesIn written (mov dst v) :=
  ⟨dst, h, fun mem => ⟨_, mem.execute_mov dst v⟩⟩

theorem writesIn_arith (h : dst ∈ written) (op : ArithOp) (a b : Source) :
    WritesIn written (arith op dst a b) :=
  ⟨dst, h, fun mem => ⟨_, mem.execute_arith op dst a b⟩⟩

theorem keeps_executeAll {is : List Instruction} (h : ∀ i ∈ is, WritesIn written i)
    (mem : Memory) : Keeps written mem (mem.executeAll is) := by
  induction is generalizing mem with
  | nil => exact keeps_refl written mem
  | cons i is ih =>
    obtain ⟨hi, his⟩ := List.forall_mem_cons.1 h
    obtain ⟨dst, hdst, hexecute⟩ := hi
    obtain ⟨v, hv⟩ := hexecute mem
    have hfirst : Keeps written mem (mem.execute i) := hv ▸ (keeps_refl written mem).set hdst v
    have hrest := ih his (mem.execute i)
    exact ⟨hrest.1.trans hfirst.1, fun r hr => (hrest.2 r hr).trans (hfirst.2 r hr)⟩

end Memory

/-! ## Sequences -/

theorem toNat_ofNat_mod_base (n : Nat) :
    (UInt8.ofNat (n % constantBase)).toNat = n % constantBase :=
  toNat_ofNat_of_le (Nat.le_trans (Nat.le_of_lt (Nat.mod_lt n (by decide))) (by decide))

namespace Memory

variable (mem : Memory) {e t q : Register} {a b x : Source}

theorem executeAll_parity (hx : x ≠ regSource dst) :
    mem.executeAll (parity dst x) = mem.set dst (floorMod (mem.value x) 2) := by
  simp [parity, value_set_of_ne _ hx, ArithOp.apply, floorMod]

theorem executeAll_loadSignDivisor (dst : Register) :
    mem.executeAll (loadSignDivisor dst) = mem.set dst signDivisor := by
  simp [loadSignDivisor, ArithOp.apply, signDivisor]

/-- The remainder, from quotient and product. -/
theorem executeAll_remainder (ha : a ≠ regSource q) (hb : b ≠ regSource q) :
    (mem.executeAll (remainder dst q a b)).get dst = floorMod (mem.value a) (mem.value b) := by
  simp [remainder, value_set_of_ne _ ha, value_set_of_ne _ hb, ArithOp.apply, floorMod]

/-- The comparison of two words as a word. -/
theorem executeAll_lessThan (hae : a ≠ regSource e) (hat : a ≠ regSource t)
    (hbe : b ≠ regSource e) (hbt : b ≠ regSource t) (hne : e ≠ t) :
    (mem.executeAll (lessThan dst e t a b)).get dst = truth (mem.value a < mem.value b) := by
  rw [← truth_lt]
  simp [lessThan, executeAll_parity, executeAll_loadSignDivisor, value_set_of_ne, get_set_of_ne,
    hae, hat, hbe, hbt, hne.symm, ArithOp.apply, halfDifference]

theorem keeps_remainder (dst q : Register) (a b : Source) :
    Keeps [dst, q] mem (mem.executeAll (remainder dst q a b)) :=
  keeps_executeAll (by simp [remainder, writesIn_arith]) mem

/-- A comparison changes its three registers only. -/
theorem keeps_lessThan (dst e t : Register) (a b : Source) :
    Keeps [dst, e, t] mem (mem.executeAll (lessThan dst e t a b)) :=
  keeps_executeAll
    (by simp [lessThan, parity, loadSignDivisor, writesIn_arith, writesIn_mov, or_imp, forall_and])
    mem

@[simp] theorem execute_copy (dst r : Register) :
    mem.execute (copy dst r) = mem.set dst (mem.get r) := by
  simp [copy, ArithOp.apply]

/-- A sum or product of digits wraps like the whole. -/
theorem executeAll_loadNatural (dst : Register) (n : Nat) :
    mem.executeAll (loadNatural dst n) = mem.set dst (Int64.ofNat n) := by
  fun_induction loadNatural dst n with
  | case1 n h => simp [toNat_ofNat_of_le h]
  | case2 n h low ih =>
    have hbase : (UInt8.ofNat constantBase).toNat = constantBase := rfl
    have hlow : (UInt8.ofNat low).toNat = low := toNat_ofNat_mod_base n
    have hvalue : Int64.ofNat n =
        Int64.ofNat (n / constantBase) * Int64.ofNat constantBase + Int64.ofNat low := by
      rw [← Int64.ofNat_mul, ← Int64.ofNat_add, Nat.div_add_mod']
    rw [executeAll_append, ih, hvalue]
    by_cases hzero : low = 0
    · simp [hzero, hbase, ArithOp.apply]
    · simp [hzero, hbase, hlow, ArithOp.apply]

/-- **Building a constant sets the register to it.** -/
theorem executeAll_loadConstant (dst : Register) (v : Int64) :
    mem.executeAll (loadConstant dst v) = mem.set dst v := by
  have hneg {m : Nat} (h : v.toInt = -(m + 1 : Nat)) : v = 0 - Int64.ofNat (m + 1) := by
    rw [← Int64.ofInt_toInt v, h, Int64.ofInt_neg, Int64.zero_sub, ← Int64.ofInt_eq_ofNat]
  rcases loadConstant_cases dst v with ⟨n, -, hn, h⟩ | ⟨m, hm, hv, h⟩ | ⟨m, -, hv, h⟩ <;> rw [h]
  · rw [executeAll_loadNatural, ← Int64.ofInt_eq_ofNat, ← hn, Int64.ofInt_toInt]
  · rw [executeAll_cons, execute_arith, value_imm, value_imm,
      toNat_ofNat_of_le (Nat.le_trans hm (by decide)), hneg hv]
    rfl
  · simp [executeAll_loadNatural, ArithOp.apply, hneg hv, Int64.ofNat_add, Int64.neg_add]

end Memory

/-! ## Choices -/

theorem run_chooseShape (bound : Nat) (hne : dst ≠ r) (zero nonzero : UInt8) (mem : Memory) :
    (chooseShape dst r zero nonzero).run bound mem =
      some (mem.set dst (if mem.get r = 0 then Int64.ofNat zero.toNat
        else Int64.ofNat nonzero.toNat)) := by
  by_cases hr : mem.get r = 0 <;>
    simp [chooseShape, Shape.run, Memory.get_set_of_ne _ hne, hr]

/-- The code of a logical operator. -/
theorem run_combineShape (bound : Nat) (op : LogicalOp) {a b : Register} (ha : dst ≠ a)
    (hb : dst ≠ b) (mem : Memory) :
    (combineShape op dst a b).run bound mem =
      some (mem.set dst (op.eval (mem.get a) (mem.get b))) := by
  cases op with
  | and =>
    by_cases hva : mem.get a = 0 <;> by_cases hvb : mem.get b = 0 <;>
      simp [combineShape, conjunctionShape, Shape.run, Memory.get_set_of_ne _ ha,
        Memory.get_set_of_ne _ hb, LogicalOp.eval, truth, hva, hvb]
  | or =>
    by_cases hva : mem.get a = 0 <;> by_cases hvb : mem.get b = 0 <;>
      simp [combineShape, disjunctionShape, Shape.run, Memory.get_set_of_ne _ ha,
        Memory.get_set_of_ne _ hb, LogicalOp.eval, truth, hva, hvb]

end ImpMachine
