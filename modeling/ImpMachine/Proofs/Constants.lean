import Mathlib.Algebra.Order.Ring.Nat
import ImpMachine.Proofs.StraightLine

/-!
# Constants digit by digit

A move takes a byte and a source operand has seven bits for an immediate, so a wider constant is
built from its digits in base `127`, and a wide negative one as the opposite of the number below
its own opposite. Every word is built so, in at most nineteen instructions, and no operation on the
way wraps (`loadConstant_exact`): the number below the opposite of the least word is the greatest.
-/

namespace ImpMachine

open Assembly

/-! ## Length -/

namespace Assembly

/-- A division by the base costs two instructions, or one for the digit zero. -/
theorem length_loadNatural_le (dst : Register) {n k : Nat} (h : n / constantBase ^ k ≤ maxAddress) :
    (loadNatural dst n).length ≤ 2 * k + 1 := by
  induction k generalizing n with
  | zero =>
    rw [pow_zero, Nat.div_one] at h
    rw [loadNatural, if_pos h]
    exact Nat.le_refl _
  | succ k ih =>
    rw [pow_succ', ← Nat.div_div_eq_div_mul] at h
    have hrest := ih h
    rw [loadNatural]
    split
    · simp
    · by_cases hlow : n % constantBase = 0
      · simp [hlow]
        omega
      · simp [hlow]
        omega

theorem length_loadConstant_le (dst : Register) (v : Int64) : (loadConstant dst v).length ≤ 19 := by
  have hnatural {n : Nat} (h : n < 9223372036854775808) : (loadNatural dst n).length ≤ 17 := by
    -- eight divisions by the base leave a byte of any word
    have hbase : constantBase ^ 8 = 67675234241018881 := rfl
    refine length_loadNatural_le dst (k := 8) ?_
    rw [hbase, maxAddress]
    omega
  rcases loadConstant_cases dst v with ⟨n, hn, -, h⟩ | ⟨m, -, -, h⟩ | ⟨m, hm, -, h⟩ <;> rw [h]
  · exact Nat.le_trans (hnatural hn) (by decide)
  · simp
  · rw [List.length_append]
    exact Nat.add_le_add_right (hnatural hm) 2

end Assembly

/-! ## Words on the way -/

theorem toInt_ofNat {n : Nat} (h : n < 9223372036854775808) : (Int64.ofNat n).toInt = n := by
  rw [← Int64.ofInt_eq_ofNat, Int64.toInt_ofInt]
  exact bmod_size_of_bounds (by omega) (by omega)

namespace ArithOp

variable {a b n : Nat}

theorem isExact_add_ofNat (h : a + b < 9223372036854775808) :
    IsExact .add (Int64.ofNat a) (Int64.ofNat b) := by
  rw [IsExact, apply, ← Int64.ofNat_add, toInt_ofNat h, toInt_ofNat (by omega),
    toInt_ofNat (by omega)]
  exact Int.natCast_add a b

theorem isExact_mul_ofNat (ha : a < 9223372036854775808) (hb : b < 9223372036854775808)
    (h : a * b < 9223372036854775808) : IsExact .mul (Int64.ofNat a) (Int64.ofNat b) := by
  rw [IsExact, apply, ← Int64.ofNat_mul, toInt_ofNat h, toInt_ofNat ha, toInt_ofNat hb]
  exact Int.natCast_mul a b

theorem isExact_negate (h : n < 9223372036854775808) : IsExact .sub 0 (Int64.ofNat n) := by
  have hzero : (0 : Int64).toInt = 0 := rfl
  refine isExact_of_bounds ?_ ?_ <;> rw [exact, hzero, toInt_ofNat h] <;> omega

/-- The opposite of the greatest word is just above the least word. -/
theorem isExact_predecessor (h : n < 9223372036854775808) : IsExact .sub (0 - Int64.ofNat n) 1 := by
  have hzero : (0 : Int64).toInt = 0 := rfl
  have hone : (1 : Int64).toInt = 1 := rfl
  have hneg : (0 - Int64.ofNat n).toInt = _ := isExact_negate h
  refine isExact_of_bounds ?_ ?_ <;> rw [exact, hneg, exact, hzero, hone, toInt_ofNat h] <;> omega

end ArithOp

/-! ## The sequence -/

namespace Memory

open ArithOp

variable (mem : Memory)

/-- What stands in the register never exceeds the number that is built. -/
theorem exactAll_loadNatural (dst : Register) {n : Nat} (h : n < 9223372036854775808) :
    mem.ExactAll (loadNatural dst n) := by
  fun_induction loadNatural dst n with
  | case1 n hn => simp
  | case2 n hn low ih =>
    have hbase : (UInt8.ofNat constantBase).toNat = constantBase := rfl
    have hsum : n / constantBase * constantBase + low = n := Nat.div_add_mod' ..
    have hfront : n / constantBase ≤ n := Nat.div_le_self ..
    have hexact : IsExact .mul (Int64.ofNat (n / constantBase)) (Int64.ofNat constantBase) :=
      isExact_mul_ofNat (by omega) (by decide) (by omega)
    have hproduct : ArithOp.mul.apply (Int64.ofNat (n / constantBase)) (Int64.ofNat constantBase) =
        Int64.ofNat (n / constantBase * constantBase) := (Int64.ofNat_mul ..).symm
    rw [exactAll_append, executeAll_loadNatural, exactAll_arith_cons, value_regSource,
      get_set_self, value_imm, hbase, hproduct]
    refine ⟨ih (by omega), hexact, ?_⟩
    split
    · trivial
    · rw [exactAll_arith_cons, value_regSource, get_set_self, value_imm, toNat_ofNat_mod_base]
      exact ⟨isExact_add_ofNat (by omega), trivial⟩

/-- **No operation on the way to a constant wraps.** -/
theorem exactAll_loadConstant (dst : Register) (v : Int64) : mem.ExactAll (loadConstant dst v) := by
  rcases loadConstant_cases dst v with ⟨n, hn, -, h⟩ | ⟨m, hm, -, h⟩ | ⟨m, hm, -, h⟩ <;> rw [h]
  · exact mem.exactAll_loadNatural dst hn
  · have hsmall : m + 1 ≤ maxAddress := Nat.le_trans hm (by decide)
    rw [exactAll_arith_cons, value_imm, value_imm, toNat_ofNat_of_le hsmall]
    exact ⟨isExact_negate (Nat.lt_of_le_of_lt hsmall (by decide)), trivial⟩
  · rw [exactAll_append, executeAll_loadNatural, exactAll_arith_cons, exactAll_arith_cons]
    simp only [value_regSource, get_set_self, value_imm]
    exact ⟨mem.exactAll_loadNatural dst hm, isExact_negate hm, isExact_predecessor hm, trivial⟩

end Memory

/-! ## Constants on the machine -/

/-- **Every word can be built.** The code of a constant has at most nineteen instructions, for every
word and every register. Each of them works in that register alone, with an immediate that fits its
operand byte. Wherever the code stands, the machine runs through it, one step for each instruction,
and no operation on the way wraps. The register then has the word, and nothing else has changed. -/
theorem loadConstant_exact (dst : Register) (v : Int64) :
    (loadConstant dst v).length ≤ 19 ∧
      (∀ i ∈ loadConstant dst v,
        (∃ n ≤ maxAddress, i = mov dst (UInt8.ofNat n)) ∨
          ∃ op a b, i = arith op dst a b ∧ FitsIn dst a ∧ FitsIn dst b) ∧
      ∀ (before after : Code) (m : Machine), m.status = .running → m.pc = before.length →
        ∃ m', m.RunsExactly (before ++ (encodeAll (loadConstant dst v) ++ after))
            (loadConstant dst v) m' ∧
          m'.status = .running ∧ m'.pc = before.length + (encodeAll (loadConstant dst v)).length ∧
          m'.get dst.byte = v ∧ (∀ r : Register, r ≠ dst → m'.get r.byte = m.get r.byte) ∧
          m'.output = m.output ∧ m'.loops = m.loops ∧ m'.calls = m.calls := by
  have hsimple := isSimple_loadConstant dst v
  refine ⟨length_loadConstant_le dst v, fun i hi => ?_, fun before after m hrunning hpc => ?_⟩
  · cases worksIn_loadConstant dst v i hi with
    | mov hn => exact .inl ⟨_, hn, rfl⟩
    | arith op ha hb => exact .inr ⟨op, _, _, rfl, ha, hb⟩
  · have hmemory := m.memory.executeAll_loadConstant dst v
    have hexact := m.memory.exactAll_loadConstant dst v
    refine ⟨m.behind (loadConstant dst v),
      Machine.runsExactly_behind hsimple hexact hrunning (Machine.codeAt_of_pc hsimple hpc), rfl,
      congrArg (· + _) hpc, ?_, fun r hr => ?_, congrArg Memory.output hmemory, rfl, rfl⟩
    · rw [Machine.get_behind, hmemory, Memory.get_set_self]
    · rw [Machine.get_behind, hmemory, Memory.get_set_of_ne _ hr.symm, Machine.get_memory]

/-- The least word, while another register is in use, and a word that takes all nineteen
instructions. -/
theorem loadConstant_exact_least :
    (loadConstant sharedRegister (Int64.minValue + 1)).length = 19 ∧
      ∃ m', ((Machine.initial .running).set 1 7).RunsExactly
          (encodeAll (loadConstant sharedRegister Int64.minValue))
          (loadConstant sharedRegister Int64.minValue) m' ∧
        m'.get 2 = Int64.minValue ∧ m'.get 1 = 7 := by
  obtain ⟨-, -, hruns⟩ := loadConstant_exact sharedRegister Int64.minValue
  obtain ⟨m', hexact, -, -, hvalue, hkept, -⟩ :=
    hruns [] [] ((Machine.initial .running).set 1 7) rfl rfl
  refine ⟨by decide +kernel, m', ?_, hvalue, hkept ownRegister (by decide)⟩
  rwa [List.append_nil] at hexact

end ImpMachine
