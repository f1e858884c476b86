import Mathlib.Data.Rat.Floor
import ImpMachine.Proofs.StraightLine

/-!
# Floor division of words

The quotient of two words is the quotient of the integers, rounded down and wrapped, and only the
least word divided by `-1` wraps. The remainder is that of the integers for all words: the product
that it is computed from may wrap, but the difference from the dividend undoes this. The same holds
of the instructions that compute a remainder (`floor_division_exact`).
-/

namespace ImpMachine

open Assembly Arithmetic RegisterMap

variable {registers registers' : RegisterMap} {dst : Register} {is : List Instruction}

/-! ## Integers -/

theorem fdiv_eq_floor (a b : Int) : a.fdiv b = ⌊(a : ℚ) / b⌋ := by
  have hpositive {a b : Int} (hb : 0 ≤ b) : a.fdiv b = ⌊(a : ℚ) / b⌋ := by
    obtain ⟨n, rfl⟩ := Int.eq_ofNat_of_zero_le hb
    rw [Int.fdiv_eq_ediv_of_nonneg _ hb, Int.cast_natCast, Rat.floor_intCast_div_natCast]
  rcases Int.le_total 0 b with hb | hb
  · exact hpositive hb
  · -- both signs may be changed
    rw [← Int.neg_fdiv_neg, hpositive (Int.neg_nonneg_of_nonpos hb), Int.cast_neg, Int.cast_neg,
      neg_div_neg_eq]

theorem fmod_bounds_of_neg (a : Int) {b : Int} (hb : b < 0) : b < a.fmod b ∧ a.fmod b ≤ 0 := by
  have hneg := Int.neg_fmod_neg a b
  have hlow := Int.fmod_nonneg_of_pos (-a) (Int.neg_pos_of_neg hb)
  have hhigh := Int.fmod_lt_of_pos (-a) (Int.neg_pos_of_neg hb)
  omega

/-- Rounding down is truncation, less one for a negative fraction. -/
theorem fdiv_eq_tdiv_sub (a : Int) {b : Int} (hb : b ≠ 0) :
    a.fdiv b = a.tdiv b - if a.tmod b ≠ 0 ∧ (a < 0 ↔ ¬b < 0) then 1 else 0 := by
  rw [Int.fdiv_eq_tdiv]
  by_cases hdvd : b ∣ a
  · have hmod := Int.tmod_eq_zero_of_dvd hdvd
    rw [if_pos hdvd, if_neg fun h => h.1 hmod]
  · have hmod : a.tmod b ≠ 0 := mt Int.dvd_of_tmod_eq_zero hdvd
    rw [if_neg hdvd]
    rcases Int.lt_or_gt_of_ne hb with hneg | hpos
    · have hsign := Int.sign_eq_neg_one_of_neg hneg
      by_cases ha : a < 0
      · simp [hmod, hneg, hsign, ha, Int.not_le.2 hneg, Int.not_le.2 ha]
      · simp [hmod, hneg, ha, Int.not_le.2 hneg, Int.not_lt.1 ha]
    · have hsign := Int.sign_eq_one_of_pos hpos
      have hnot : ¬b < 0 := Int.not_lt.2 (Int.le_of_lt hpos)
      by_cases ha : a < 0
      · simp [hmod, hnot, hsign, ha, Int.le_of_lt hpos, Int.not_le.2 ha]
      · simp [hmod, hnot, ha, Int.le_of_lt hpos, Int.not_lt.1 ha]

/-! ## Words -/

namespace Arithmetic

variable (a b : Int64)

/-- The quotient of two words is too large for a word in one case only. -/
theorem toInt_floorDiv_eq_iff :
    (floorDiv a b).toInt = a.toInt.fdiv b.toInt ↔ ¬(a = Int64.minValue ∧ b = -1) := by
  constructor
  · rintro h ⟨rfl, rfl⟩
    exact absurd h (by decide)
  · intro hne
    have hlow := a.le_toInt
    have hhigh := a.toInt_lt
    have habs := Int.natAbs_fdiv_le_natAbs a.toInt b.toInt
    rw [floorDiv, Int64.toInt_ofInt]
    refine bmod_size_of_bounds (by omega) (Int.not_le.1 fun hle => hne ?_)
    -- such a quotient leaves no choice for the dividend, and then none for the divisor
    have ha : a.toInt = -9223372036854775808 := by omega
    have hfdiv : a.toInt.fdiv b.toInt = 9223372036854775808 := by omega
    have hfmod := Int.fmod_def a.toInt b.toInt
    rw [hfdiv, ha] at hfmod
    have hb : b.toInt = -1 := by
      rcases Int.lt_trichotomy b.toInt 0 with hb | hb | hb
      · have hbounds := fmod_bounds_of_neg (-9223372036854775808) hb
        omega
      · rw [hb, Int.fdiv_zero] at hfdiv
        cases hfdiv
      · have hnonneg := Int.fmod_nonneg_of_pos (-9223372036854775808) hb
        omega
    exact ⟨Int64.toInt_inj.1 ha, Int64.toInt_inj.1 hb⟩

/-- **The remainder is that of the integers**, also where the product wraps. -/
theorem toInt_floorMod : (floorMod a b).toInt = a.toInt.fmod b.toInt := by
  have halow := a.le_toInt
  have hahigh := a.toInt_lt
  have hblow := b.le_toInt
  have hbhigh := b.toInt_lt
  have hwrapped : (floorMod a b).toInt = (a.toInt.fmod b.toInt).bmod Int64.size := by
    rw [floorMod, Int64.toInt_sub, Int64.toInt_mul, floorDiv, Int64.toInt_ofInt, Int.bmod_mul_bmod,
      Int.sub_bmod_bmod, Int.fmod_def, Int.mul_comm]
  rw [hwrapped]
  rcases Int.lt_trichotomy b.toInt 0 with hb | hb | hb
  · have hbounds := fmod_bounds_of_neg a.toInt hb
    exact bmod_size_of_bounds (by omega) (by omega)
  · rw [hb, Int.fmod_zero]
    exact bmod_size_of_bounds halow hahigh
  · have hnonneg := Int.fmod_nonneg_of_pos a.toInt hb
    have hlt := Int.fmod_lt_of_pos a.toInt hb
    exact bmod_size_of_bounds (by omega) (by omega)

/-- Rounding down is truncation, less one for a negative fraction. -/
theorem floorDiv_eq_truncated (hb : b ≠ 0) :
    floorDiv a b = if a % b ≠ 0 ∧ (a < 0 ↔ ¬b < 0) then a / b - 1 else a / b := by
  have hzero : (0 : Int64).toInt = 0 := rfl
  have hone : (1 : Int64).toInt = 1 := rfl
  have hb : b.toInt ≠ 0 := fun h => hb (Int64.toInt_inj.1 h)
  have hmod : a % b ≠ 0 ↔ a.toInt.tmod b.toInt ≠ 0 := by
    rw [ne_eq, ← Int64.toInt_inj, Int64.toInt_mod, hzero]
  rw [← Int64.toInt_inj, floorDiv, Int64.toInt_ofInt, fdiv_eq_tdiv_sub _ hb]
  simp only [hmod, Int64.lt_iff_toInt_lt, hzero]
  split
  · rw [Int64.toInt_sub, Int64.toInt_div, hone]
    exact Int.bmod_sub_bmod.symm
  · rw [Int64.toInt_div, Int.sub_zero]

end Arithmetic

/-! ## Remainders on the machine -/

theorem exists_remainder {a b : Source}
    (h : operate .mod dst a b registers = .ok (is, registers')) :
    ∃ q, is = remainder dst q a b ∧ registers.holder q = none := by
  obtain ⟨q, m₁, hq, h⟩ := run_bind_eq_ok.1 h
  obtain ⟨_, _, ⟨⟩, ⟨⟩⟩ := run_bind_eq_ok.1 h
  exact ⟨q, rfl, (Borrows.of_temp hq).free q (List.mem_singleton_self q)⟩

/-- The three instructions leave the remainder in the destination. -/
theorem leads_remainder {a b : Source} (ha : registers.Ready a) (hb : registers.Ready b)
    (h : operate .mod dst a b registers = .ok (is, registers')) {before after : Code} {m : Machine}
    (hrunning : m.status = .running) (hpc : m.pc = before.length) :
    m.Leads (before ++ (encodeAll is ++ after)) is.length (m.behind is) ∧
      (m.behind is).get dst.byte = floorMod (m.value a) (m.value b) := by
  obtain ⟨q, his, hq⟩ := exists_remainder h
  have hsimple : ∀ i ∈ is, i.IsSimple := his ▸ isSimple_remainder dst q ha.valid hb.valid
  have hvalue : (m.memory.executeAll is).get dst =
      floorMod (m.memory.value a) (m.memory.value b) :=
    his ▸ m.memory.executeAll_remainder (ha.ne hq) (hb.ne hq)
  refine ⟨Machine.leads_behind hsimple hrunning (Machine.codeAt_of_pc hsimple hpc), ?_⟩
  rw [Machine.get_behind, hvalue, Machine.value_memory, Machine.value_memory]

theorem floorMod_zero (a : Int64) : floorMod a 0 = a := by
  rw [← Int64.toInt_inj, toInt_floorMod]
  exact Int.fmod_zero _

/-- **Floor division is exact on all words.** Unless the divisor is zero, the quotient is the
quotient of the integers, rounded down and wrapped, which is what rounding towards zero gives after
a correction by the signs; it wraps only for the least word and `-1`. The remainder is that of the
integers and does not wrap, so it lies between zero and the divisor. The three instructions for a
remainder leave the same word, for a zero divisor too, where it is the dividend. -/
theorem floor_division_exact :
    (∀ a b : Int64, b ≠ 0 →
      floorDiv a b = Int64.ofInt ⌊(a.toInt : ℚ) / b.toInt⌋ ∧
      floorDiv a b = (if a % b ≠ 0 ∧ (a < 0 ↔ ¬b < 0) then a / b - 1 else a / b) ∧
      ((floorDiv a b).toInt = ⌊(a.toInt : ℚ) / b.toInt⌋ ↔ ¬(a = Int64.minValue ∧ b = -1)) ∧
      (floorMod a b).toInt = a.toInt - b.toInt * ⌊(a.toInt : ℚ) / b.toInt⌋ ∧
      (0 < b → 0 ≤ floorMod a b ∧ floorMod a b < b) ∧
      (b < 0 → b < floorMod a b ∧ floorMod a b ≤ 0)) ∧
    ∀ (registers registers' : RegisterMap) (dst : Register) (a b : Source) (is : List Instruction),
      registers.Ready a → registers.Ready b →
      operate .mod dst a b registers = .ok (is, registers') →
      is.map Instruction.opcode = [.div, .mul, .sub] ∧
      ∀ (before after : Code) (m : Machine), m.status = .running → m.pc = before.length →
        ∃ m', m.Leads (before ++ (encodeAll is ++ after)) is.length m' ∧
          m'.status = .running ∧ m'.pc = before.length + (encodeAll is).length ∧
          m'.get dst.byte = floorMod (m.value a) (m.value b) ∧
          (m.value b = 0 → m'.get dst.byte = m.value a) := by
  refine ⟨fun a b hb => ?_, fun registers registers' dst a b is ha hb h => ⟨?_, ?_⟩⟩
  · have hmod := toInt_floorMod a b
    rw [← fdiv_eq_floor]
    refine ⟨rfl, floorDiv_eq_truncated a b hb, toInt_floorDiv_eq_iff a b, ?_, fun hpos => ?_,
      fun hneg => ?_⟩
    · rw [hmod, Int.fmod_def]
    · have hpos := Int64.lt_iff_toInt_lt.1 hpos
      rw [Int64.le_iff_toInt_le, Int64.lt_iff_toInt_lt, hmod]
      exact ⟨Int.fmod_nonneg_of_pos _ hpos, Int.fmod_lt_of_pos _ hpos⟩
    · have hneg := Int64.lt_iff_toInt_lt.1 hneg
      rw [Int64.le_iff_toInt_le, Int64.lt_iff_toInt_lt, hmod]
      exact fmod_bounds_of_neg _ hneg
  · obtain ⟨q, rfl, -⟩ := exists_remainder h
    rfl
  · intro before after m hrunning hpc
    obtain ⟨hleads, hvalue⟩ := leads_remainder ha hb h hrunning hpc
    refine ⟨m.behind is, hleads, rfl, congrArg (· + _) hpc, hvalue, fun hzero => ?_⟩
    rw [hvalue, hzero, floorMod_zero]

/-- A dividend and a divisor of zero. -/
def zeroDivisor : Machine := (Machine.initial .running).set 1 7

/-- The least word divided by `3`, where the product of quotient and divisor is no word; the least
word divided by `-1`; and a remainder by zero that goes to the register of the dividend. -/
theorem floor_division_exact_least :
    (floorDiv Int64.minValue 3).toInt * 3 < Int64.minValue.toInt ∧
      (floorMod Int64.minValue 3).toInt =
        Int64.minValue.toInt - 3 * ⌊(Int64.minValue.toInt : ℚ) / (3 : Int64).toInt⌋ ∧
      floorMod Int64.minValue 3 < 3 ∧
      (floorDiv Int64.minValue (-1)).toInt ≠ ⌊(Int64.minValue.toInt : ℚ) / (-1 : Int64).toInt⌋ ∧
      ∃ is registers',
        operate .mod ownRegister (regSource ownRegister) (regSource sharedRegister) ownAndShared =
          .ok (is, registers') ∧
        ∃ m', zeroDivisor.Leads (encodeAll is) 3 m' ∧ m'.get 1 = 7 := by
  obtain ⟨hwords, hcode⟩ := floor_division_exact
  obtain ⟨-, -, -, hmod, hpos, -⟩ := hwords Int64.minValue 3 (by decide)
  obtain ⟨-, -, hwraps, -⟩ := hwords Int64.minValue (-1) (by decide)
  have hown : ownAndShared.Ready (regSource ownRegister) := .inr ⟨ownRegister, rfl, _, rfl⟩
  have hshared : ownAndShared.Ready (regSource sharedRegister) :=
    .inr ⟨sharedRegister, rfl, _, rfl⟩
  obtain ⟨-, hruns⟩ := hcode _ _ ownRegister _ _ _ hown hshared rfl
  obtain ⟨m', hleads, -, -, -, hzero⟩ := hruns [] [] zeroDivisor rfl rfl
  refine ⟨by decide, hmod, (hpos (by decide)).2, mt hwraps.1 fun hnot => hnot ⟨rfl, rfl⟩, _, _, rfl,
    m', ?_, hzero rfl⟩
  rwa [List.append_nil] at hleads

end ImpMachine
