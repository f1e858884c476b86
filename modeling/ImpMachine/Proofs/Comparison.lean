import ImpMachine.Proofs.StraightLine

/-!
# Comparison by halves

The machine has no comparison, and the difference of two words need not be a word. So the code of a
comparison computes half of the difference, rounded down, from the halves and parities of both
words, and takes the sign of it. It is exact on all words (`compareLess_exact`): no operation on the
way wraps, although half the difference of the least and the greatest word is the least word.
-/

namespace ImpMachine

open Assembly Arithmetic RegisterMap

/-! ## Words on the way -/

namespace ArithOp

variable (a b : Int64)

theorem isExact_double_half : IsExact .mul (floorDiv a 2) 2 := by
  have hlow := a.le_toInt
  have hhigh := a.toInt_lt
  have htwo : (2 : Int64).toInt = 2 := rfl
  refine isExact_of_bounds ?_ ?_ <;> rw [exact, toInt_floorDiv_two, htwo] <;> omega

theorem isExact_parity : IsExact .sub a (floorDiv a 2 * 2) := by
  have hlow := a.le_toInt
  have hhigh := a.toInt_lt
  have htwo : (2 : Int64).toInt = 2 := rfl
  have hdouble : (floorDiv a 2 * 2).toInt = (floorDiv a 2).toInt * (2 : Int64).toInt :=
    isExact_double_half a
  rw [toInt_floorDiv_two, htwo] at hdouble
  refine isExact_of_bounds ?_ ?_ <;> rw [exact, hdouble] <;> omega

theorem isExact_sub_parities : IsExact .sub (floorMod a 2) (floorMod b 2) := by
  refine isExact_of_bounds ?_ ?_ <;> rw [exact, toInt_floorMod_two, toInt_floorMod_two] <;> omega

/-- Half the difference of the parities, in the integers. -/
theorem toInt_half_parities :
    (floorDiv (floorMod a 2 - floorMod b 2) 2).toInt = (a.toInt % 2 - b.toInt % 2) / 2 := by
  have hparities : (floorMod a 2 - floorMod b 2).toInt = _ := isExact_sub_parities a b
  rw [toInt_floorDiv_two, hparities, exact, toInt_floorMod_two, toInt_floorMod_two]

/-- The half of the parities is `-1` or `0`, and half a word is far from the bounds. -/
theorem isExact_add_half :
    IsExact .add (floorDiv (floorMod a 2 - floorMod b 2) 2) (floorDiv a 2) := by
  have hlow := a.le_toInt
  have hhigh := a.toInt_lt
  refine isExact_of_bounds ?_ ?_ <;> rw [exact, toInt_half_parities, toInt_floorDiv_two] <;> omega

/-- The last difference reaches the least word, and no further. -/
theorem isExact_halfDifference :
    IsExact .sub (floorDiv (floorMod a 2 - floorMod b 2) 2 + floorDiv a 2) (floorDiv b 2) := by
  have halow := a.le_toInt
  have hahigh := a.toInt_lt
  have hblow := b.le_toInt
  have hbhigh := b.toInt_lt
  have hsum : (floorDiv (floorMod a 2 - floorMod b 2) 2 + floorDiv a 2).toInt = _ :=
    isExact_add_half a b
  refine isExact_of_bounds ?_ ?_ <;>
    rw [exact, hsum, exact, toInt_half_parities, toInt_floorDiv_two, toInt_floorDiv_two] <;> omega

theorem isExact_negate_sign :
    IsExact .sub 0 (floorDiv (floorDiv (halfDifference a b) signDivisor) 4) := by
  have hlow := (halfDifference a b).le_toInt
  have hhigh := (halfDifference a b).toInt_lt
  have hzero : (0 : Int64).toInt = 0 := rfl
  have hfour : (4 : Int64).toInt = 4 := rfl
  have hdivisor : signDivisor.toInt = 4611686018427387904 := by decide
  refine isExact_of_bounds ?_ ?_ <;>
    rw [exact, toInt_floorDiv (by decide), toInt_floorDiv (by decide), hzero, hfour, hdivisor] <;>
    omega

end ArithOp

/-! ## The sequence -/

namespace Memory

open ArithOp

variable (mem : Memory) {dst e t : Register} {a b x : Source}

theorem exactAll_parity (hx : x ≠ regSource dst) : mem.ExactAll (parity dst x) := by
  have hhalf : IsExact .div (mem.value x) 2 := isExact_div (by decide)
  simp only [parity, exactAll_arith_cons, value_regSource, get_set_self, value_set_of_ne _ hx]
  exact ⟨hhalf, isExact_double_half _, isExact_parity _, trivial⟩

theorem exactAll_loadSignDivisor (dst : Register) : mem.ExactAll (loadSignDivisor dst) := by
  simp only [loadSignDivisor, exactAll_mov_cons, exactAll_arith_cons, value_regSource, value_imm,
    get_set_self]
  exact ⟨rfl, rfl, rfl, rfl, trivial⟩

/-- **No operation of a comparison wraps.** -/
theorem exactAll_lessThan (hae : a ≠ regSource e) (hat : a ≠ regSource t) (hbe : b ≠ regSource e)
    (hbt : b ≠ regSource t) (hne : e ≠ t) : mem.ExactAll (lessThan dst e t a b) := by
  have hhalf (v : Int64) : IsExact .div v 2 := isExact_div (by decide)
  have hsign (v : Int64) : IsExact .div v signDivisor := isExact_div (by decide)
  have hquarter (v : Int64) : IsExact .div v 4 := isExact_div (by decide)
  -- what is left of the sequence, once the parities and the divisor are dealt with
  simp only [lessThan, exactAll_append, executeAll_append, exactAll_parity, executeAll_parity,
    exactAll_loadSignDivisor, executeAll_loadSignDivisor, hae, hbt, ne_eq, not_false_eq_true,
    true_and, and_true]
  refine ⟨?_, ?_⟩
  · simp only [exactAll_arith_cons, value_regSource, value_imm, get_set_self,
      get_set_of_ne _ hne.symm, value_set_of_ne _ hae, value_set_of_ne _ hat, value_set_of_ne _ hbe,
      value_set_of_ne _ hbt, apply]
    exact ⟨isExact_sub_parities _ _, hhalf _, hhalf _, isExact_add_half _ _, hhalf _,
      isExact_halfDifference _ _, trivial⟩
  · simp only [executeAll_cons, executeAll_nil, execute_arith, exactAll_arith_cons, value_regSource,
      value_imm, get_set_self, get_set_of_ne _ hne.symm, value_set_of_ne _ hae,
      value_set_of_ne _ hat, value_set_of_ne _ hbe, value_set_of_ne _ hbt, apply]
    exact ⟨hsign _, hquarter _, isExact_negate_sign _ _, trivial⟩

end Memory

/-! ## Comparisons on the machine -/

/-- A comparison takes two free registers for its intermediate values. -/
theorem exists_lessThan {registers registers' : RegisterMap} {dst : Register} {a b : Source}
    {is : List Instruction} (h : compareLess dst a b registers = .ok (is, registers')) :
    ∃ e t, is = lessThan dst e t a b ∧ registers.holder e = none ∧ registers.holder t = none ∧
      e ≠ t := by
  obtain ⟨e, m₁, he, h⟩ := run_bind_eq_ok.1 h
  obtain ⟨t, m₂, ht, h⟩ := run_bind_eq_ok.1 h
  obtain ⟨_, _, ⟨⟩, ⟨⟩⟩ := run_bind_eq_ok.1 h
  have he := Borrows.of_temp he
  have ht := Borrows.of_temp ht
  have hboth : Borrows [e, t] registers m₂ := he.trans ht
  exact ⟨e, t, rfl, hboth.free e (by simp), hboth.free t (by simp),
    (he.isHeld_self (List.mem_singleton_self e)).ne (ht.free t (by simp))⟩

/-- **Comparison by halves is exact.** The sources are registers that are held, or immediates, and
the destination is any register, also that of a source. Wherever the code of a comparison stands,
the machine runs through it, one step for each instruction, and no operation on the way wraps. The
destination then has `1` if the first word is less than the second, and `0` otherwise. Besides it
only two registers that nobody held have changed. -/
theorem compareLess_exact {registers registers' : RegisterMap} {dst : Register} {a b : Source}
    {is : List Instruction} (ha : registers.Ready a) (hb : registers.Ready b)
    (h : compareLess dst a b registers = .ok (is, registers')) :
    ∃ e t : Register, registers.holder e = none ∧ registers.holder t = none ∧ e ≠ t ∧
      ∀ (before after : Code) (m : Machine), m.status = .running → m.pc = before.length →
        ∃ m', m.RunsExactly (before ++ (encodeAll is ++ after)) is m' ∧
          m'.status = .running ∧ m'.pc = before.length + (encodeAll is).length ∧
          m'.get dst.byte = (if m.value a < m.value b then 1 else 0) ∧
          (∀ r : Register, r ≠ dst → r ≠ e → r ≠ t → m'.get r.byte = m.get r.byte) ∧
          m'.output = m.output ∧ m'.loops = m.loops ∧ m'.calls = m.calls := by
  obtain ⟨e, t, his, he, ht, hne⟩ := exists_lessThan h
  have hsimple : ∀ i ∈ is, i.IsSimple := his ▸ isSimple_lessThan dst e t ha.valid hb.valid
  refine ⟨e, t, he, ht, hne, fun before after m hrunning hpc => ?_⟩
  have hexact : m.memory.ExactAll is :=
    his ▸ m.memory.exactAll_lessThan (ha.ne he) (ha.ne ht) (hb.ne he) (hb.ne ht) hne
  have hkeeps : Memory.Keeps [dst, e, t] m.memory (m.memory.executeAll is) :=
    his ▸ m.memory.keeps_lessThan dst e t a b
  have hvalue : (m.memory.executeAll is).get dst = truth (m.memory.value a < m.memory.value b) :=
    his ▸ m.memory.executeAll_lessThan (ha.ne he) (ha.ne ht) (hb.ne he) (hb.ne ht) hne
  refine ⟨m.behind is,
    Machine.runsExactly_behind hsimple hexact hrunning (Machine.codeAt_of_pc hsimple hpc), rfl,
    congrArg (· + _) hpc, ?_, fun r hdst hre hrt => ?_, hkeeps.1, rfl, rfl⟩
  · rw [Machine.get_behind, hvalue, Machine.value_memory, Machine.value_memory]
    simp [truth]
  · rw [Machine.get_behind, hkeeps.2 r (by simp [hdst, hre, hrt]), Machine.get_memory]

/-- The least word and the greatest one. -/
def extremes : Machine := ((Machine.initial .running).set 1 Int64.minValue).set 2 Int64.maxValue

/-- The result goes to the register of the least word. -/
theorem compareLess_exact_extremes :
    ∃ is registers',
      compareLess ownRegister (regSource ownRegister) (regSource sharedRegister) ownAndShared =
        .ok (is, registers') ∧
      ∃ m', extremes.RunsExactly (encodeAll is) is m' ∧ m'.get 1 = 1 ∧
        m'.get 2 = Int64.maxValue := by
  have hown : ownAndShared.Ready (regSource ownRegister) := .inr ⟨ownRegister, rfl, _, rfl⟩
  have hshared : ownAndShared.Ready (regSource sharedRegister) :=
    .inr ⟨sharedRegister, rfl, _, rfl⟩
  obtain ⟨e, t, he, ht, -, hruns⟩ :=
    compareLess_exact hown hshared (show compareLess ownRegister _ _ _ = .ok (_, _) from rfl)
  obtain ⟨m', hexact, -, -, hvalue, hkept, -⟩ := hruns [] [] extremes rfl rfl
  refine ⟨_, _, rfl, m', ?_, hvalue, ?_⟩
  · rwa [List.append_nil] at hexact
  · refine hkept sharedRegister (by decide) ?_ ?_
    · exact hshared.isHeld.ne he
    · exact hshared.isHeld.ne ht

end ImpMachine
