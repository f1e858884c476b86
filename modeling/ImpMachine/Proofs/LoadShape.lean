import ImpMachine.Proofs.Filling

/-!
# The shape of operand code

The code of operators is a shape: straight code and the inline conditionals of the choices, on
registers and immediates that there are (`shaped_operate`).
-/

namespace ImpMachine

open List

variable {a b : Source} {dst : Register} {i : Instruction}

/-! ## What a computation yields -/

/-- Every result of the computation has the property, whatever state it starts from. -/
def Yields {σ ε α : Type} (x : StateT σ (Except ε) α) (P : α → Prop) : Prop :=
  ∀ s a s', x s = .ok (a, s') → P a

namespace Yields

variable {σ ε α β : Type} {x : StateT σ (Except ε) α} {f : α → StateT σ (Except ε) β}
variable {P P' : α → Prop} {Q : β → Prop}

/-- What a sequence yields. -/
theorem bind (hx : Yields x P) (hf : ∀ a, P a → Yields (f a) Q) : Yields (x >>= f) Q := by
  intro s b t h
  obtain ⟨⟨a, s'⟩, ha, hb⟩ := bind_eq_ok.1 h
  exact hf a (hx s a s' ha) s' b t hb

/-- The same where nothing is said of the first result. -/
theorem bind_any (hf : ∀ a, Yields (f a) Q) : Yields (x >>= f) Q :=
  bind (P := fun _ => True) (fun _ _ _ _ => trivial) fun a _ => hf a

/-- What a value yields. -/
theorem pure {a : α} (h : P a) : Yields (pure a : StateT σ (Except ε) α) P := by
  rintro s b s' ⟨⟩
  exact h

theorem mono (h : Yields x P) (hPP' : ∀ a, P a → P' a) : Yields x P' :=
  fun s a s' ha => hPP' a (h s a s' ha)

end Yields

/-! ## Simple instructions -/

/-- The instruction only computes or prints, on registers that there are. -/
def Instruction.IsSimple (i : Instruction) : Prop :=
  i.Valid ∧ match i with
    | .mov .. | .arith .. | .out _ => True
    | _ => False

theorem Instruction.IsSimple.isPlain (h : i.IsSimple) : i.IsPlain := by
  cases i with
  | ifZero | jump | endIf | whileLoop | endWhile => exact h.2
  | _ => trivial

namespace Assembly

theorem valid_regSource (r : Register) : (regSource r).Valid := r.byte_lt

theorem valid_imm {n : Nat} (h : n ≤ maxSourceImmediate) : (Source.imm (UInt8.ofNat n)).Valid := by
  have hle : n ≤ maxAddress := Nat.le_trans h (by decide)
  rw [Source.Valid, toNat_ofNat_of_le hle]
  exact h

theorem isSimple_mov (dst : Register) (value : UInt8) : (mov dst value).IsSimple :=
  ⟨dst.byte_lt, trivial⟩

/-- Arithmetic on valid operands is a simple instruction. -/
theorem isSimple_arith {op : ArithOp} (ha : a.Valid) (hb : b.Valid) : (arith op dst a b).IsSimple :=
  ⟨⟨dst.byte_lt, ha, hb⟩, trivial⟩

theorem isSimple_out (r : Register) : (Instruction.out r.byte).IsSimple := ⟨r.byte_lt, trivial⟩

theorem isSimple_copy (dst r : Register) : (copy dst r).IsSimple :=
  isSimple_arith (valid_regSource r) (by decide)

/-! ## Constants -/

/-- The source is the given register, or an immediate that fits a source operand. -/
def FitsIn (dst : Register) (s : Source) : Prop :=
  s = regSource dst ∨ ∃ n ≤ maxSourceImmediate, s = .imm (UInt8.ofNat n)

/-- The instruction works in one register alone, with immediates that fit their operand bytes. -/
inductive WorksIn (dst : Register) : Instruction → Prop where
  | mov {n : Nat} (h : n ≤ maxAddress) : WorksIn dst (mov dst (UInt8.ofNat n))
  | arith (op : ArithOp) {a b : Source} (ha : FitsIn dst a) (hb : FitsIn dst b) :
    WorksIn dst (arith op dst a b)

theorem fitsIn_self (dst : Register) : FitsIn dst (regSource dst) := .inl rfl

theorem fitsIn_imm {n : Nat} (h : n ≤ maxSourceImmediate) :
    FitsIn dst (.imm (UInt8.ofNat n)) := .inr ⟨n, h, rfl⟩

theorem FitsIn.valid {s : Source} (h : FitsIn dst s) : s.Valid := by
  obtain rfl | ⟨n, hn, rfl⟩ := h
  · exact valid_regSource dst
  · exact valid_imm hn

/-- Such instructions are simple. -/
theorem WorksIn.isSimple (h : WorksIn dst i) : i.IsSimple := by
  cases h with
  | mov => exact isSimple_mov dst _
  | arith op ha hb => exact isSimple_arith ha.valid hb.valid

/-- A natural number is built in its register alone. -/
theorem worksIn_loadNatural (dst : Register) (n : Nat) :
    ∀ i ∈ loadNatural dst n, WorksIn dst i := by
  fun_induction loadNatural dst n with
  | case1 n h =>
    rw [forall_mem_singleton]
    exact .mov h
  | case2 n h low ih =>
    have hlow : low ≤ maxSourceImmediate := Nat.le_of_lt (Nat.mod_lt n (by decide))
    rw [forall_mem_append, forall_mem_cons]
    refine ⟨ih, .arith _ (fitsIn_self dst) (fitsIn_imm (Nat.le_refl _)), fun i hi => ?_⟩
    split at hi
    · cases hi
    · obtain rfl := mem_singleton.1 hi
      exact .arith _ (fitsIn_self dst) (fitsIn_imm hlow)

/-- A constant is built as a natural number, a small negative one, or below an opposite. -/
theorem loadConstant_cases (dst : Register) (v : Int64) :
    (∃ n : Nat, n < 9223372036854775808 ∧ v.toInt = n ∧ loadConstant dst v = loadNatural dst n) ∨
      (∃ m : Nat, m < constantBase ∧ v.toInt = -(m + 1 : Nat) ∧
        loadConstant dst v = [arith .sub dst (.imm 0) (.imm (UInt8.ofNat (m + 1)))]) ∨
      ∃ m : Nat, m < 9223372036854775808 ∧ v.toInt = -(m + 1 : Nat) ∧
        loadConstant dst v = loadNatural dst m ++
          [arith .sub dst (.imm 0) (regSource dst), arith .sub dst (regSource dst) (.imm 1)] := by
  have hlow := v.le_toInt
  have hhigh := v.toInt_lt
  rw [loadConstant]
  split
  · rename_i n hn
    rw [hn, Int.ofNat_eq_natCast] at hhigh
    exact .inl ⟨n, by omega, hn, rfl⟩
  · rename_i m hm
    split
    · rename_i h
      exact .inr (.inl ⟨m, h, hm, rfl⟩)
    · rw [hm, Int.negSucc_eq] at hlow
      exact .inr (.inr ⟨m, by omega, hm, rfl⟩)

/-- A constant is built in its register alone. -/
theorem worksIn_loadConstant (dst : Register) (v : Int64) :
    ∀ i ∈ loadConstant dst v, WorksIn dst i := by
  have hdst := fitsIn_self dst
  have hzero : FitsIn dst (.imm 0) := fitsIn_imm (n := 0) (by decide)
  have hone : FitsIn dst (.imm 1) := fitsIn_imm (n := 1) (by decide)
  rcases loadConstant_cases dst v with ⟨n, -, -, h⟩ | ⟨m, hm, -, h⟩ | ⟨m, -, -, h⟩ <;> rw [h]
  · exact worksIn_loadNatural dst n
  · rw [forall_mem_singleton]
    exact .arith _ hzero (fitsIn_imm hm)
  · rw [forall_mem_append, forall_mem_cons, forall_mem_singleton]
    exact ⟨worksIn_loadNatural dst m, .arith _ hzero hdst, .arith _ hdst hone⟩

/-- Constants are built by simple instructions. -/
theorem isSimple_loadConstant (dst : Register) (v : Int64) : ∀ i ∈ loadConstant dst v, i.IsSimple :=
  fun i hi => (worksIn_loadConstant dst v i hi).isSimple

/-! ## Sequences -/

/-- Remainders are computed by simple instructions. -/
theorem isSimple_remainder (dst q : Register) (ha : a.Valid) (hb : b.Valid) :
    ∀ i ∈ remainder dst q a b, i.IsSimple := by
  have hq := valid_regSource q
  simp [remainder, isSimple_arith, ha, hb, hq]

theorem isSimple_parity (dst : Register) {x : Source} (hx : x.Valid) :
    ∀ i ∈ parity dst x, i.IsSimple := by
  have hdst := valid_regSource dst
  have htwo : (Source.imm 2).Valid := by decide
  simp [parity, isSimple_arith, hx, hdst, htwo]

/-- Comparisons are computed by simple instructions. -/
theorem isSimple_lessThan (dst e t : Register) (ha : a.Valid) (hb : b.Valid) :
    ∀ i ∈ lessThan dst e t a b, i.IsSimple := by
  have he := valid_regSource e
  have ht := valid_regSource t
  have hzero : (Source.imm 0).Valid := by decide
  have htwo : (Source.imm 2).Valid := by decide
  have hfour : (Source.imm 4).Valid := by decide
  have hsixtyFour : (Source.imm 64).Valid := by decide
  intro i hi
  simp only [lessThan, loadSignDivisor, mem_append, mem_cons, not_mem_nil,
    or_false] at hi
  rcases hi with (((hi | hi) | hi) | hi) | hi
  · exact isSimple_parity e ha i hi
  · exact isSimple_parity t hb i hi
  · rcases hi with rfl | rfl | rfl | rfl | rfl | rfl <;> simp [isSimple_arith, ha, hb, he, ht, htwo]
  · rcases hi with rfl | rfl | rfl | rfl | rfl <;>
      simp [isSimple_mov, isSimple_arith, ht, hsixtyFour]
  · rcases hi with rfl | rfl | rfl <;> simp [isSimple_arith, he, ht, hfour, hzero]

/-! ## Choices -/

/-- The shape of a choice between two values. -/
def chooseShape (dst r : Register) (zero nonzero : UInt8) : Shape :=
  .plain (mov dst zero) trivial
    (.conditional r (.plain (mov dst nonzero) trivial .nil) .nil)

/-- The shape of a conjunction. -/
def conjunctionShape (dst a b : Register) : Shape :=
  .plain (mov dst 0) trivial
    (.conditional a (.conditional b (.plain (mov dst 1) trivial .nil) .nil) .nil)

/-- The shape of a disjunction. The part that is skipped stands behind the jump. -/
def disjunctionShape (dst a b : Register) : Shape :=
  .plain (mov dst 1) trivial
    (.choice a .nil (.plain (mov dst 0) trivial
      (.conditional b (.plain (mov dst 1) trivial .nil) .nil)) .nil)

/-- The shape of a logical operator. -/
def combineShape : LogicalOp → Register → Register → Register → Shape
  | .and => conjunctionShape
  | .or => disjunctionShape

/-- The shape has the instructions of the operator. -/
theorem instructions_combineShape (op : LogicalOp) (dst a b : Register) :
    (combineShape op dst a b).instructions = combine op dst a b := by
  cases op <;> rfl

@[simp] theorem width_mov (dst : Register) (value : UInt8) : (mov dst value).width = 3 := rfl

theorem fits_chooseShape (dst r : Register) (zero nonzero : UInt8) :
    (chooseShape dst r zero nonzero).Fits := by
  simp [chooseShape, Shape.Fits, Shape.size, maxAddress]

/-- Skips in an operator fit their bytes. -/
theorem fits_combineShape (op : LogicalOp) (dst a b : Register) :
    (combineShape op dst a b).Fits := by
  cases op with
  | and => simp [combineShape, conjunctionShape, Shape.Fits, Shape.size, maxAddress]
  | or => simp [combineShape, disjunctionShape, Shape.Fits, Shape.size, maxAddress]

theorem all_chooseShape (dst r : Register) (zero nonzero : UInt8) :
    (chooseShape dst r zero nonzero).All Instruction.IsSimple :=
  ⟨isSimple_mov .., ⟨isSimple_mov .., trivial⟩, trivial⟩

theorem all_combineShape (op : LogicalOp) (dst a b : Register) :
    (combineShape op dst a b).All Instruction.IsSimple := by
  cases op with
  | and => exact ⟨isSimple_mov .., ⟨⟨isSimple_mov .., trivial⟩, trivial⟩, trivial⟩
  | or => exact ⟨isSimple_mov .., trivial, ⟨isSimple_mov .., ⟨isSimple_mov .., trivial⟩, trivial⟩,
      trivial⟩

/-! ## Shaped code -/

/-- The instructions are those of a shape of simple instructions. -/
def Shaped (is : List Instruction) : Prop :=
  ∃ s : Shape, is = s.instructions ∧ s.Fits ∧ s.All Instruction.IsSimple

namespace Shaped

/-- Simple instructions have a shape. -/
theorem of_simple {is : List Instruction} (h : ∀ i ∈ is, i.IsSimple) : Shaped is := by
  have hplain : ∀ i ∈ is, i.IsPlain := fun i hi => (h i hi).isPlain
  exact ⟨.straight is hplain, (Shape.instructions_straight is hplain).symm,
    Shape.fits_straight is hplain, Shape.all_straight h⟩

theorem nil : Shaped [] := of_simple fun _ h => (not_mem_nil h).elim

theorem single (h : i.IsSimple) : Shaped [i] :=
  of_simple (forall_mem_singleton.2 h)

/-- Shaped code goes behind shaped code. -/
theorem append {is js : List Instruction} (h : Shaped is) (h' : Shaped js) : Shaped (is ++ js) := by
  obtain ⟨s, rfl, hfits, hall⟩ := h
  obtain ⟨t, rfl, hfits', hall'⟩ := h'
  exact ⟨s.append t, (Shape.instructions_append ..).symm, Shape.fits_append.2 ⟨hfits, hfits'⟩,
    Shape.all_append.2 ⟨hall, hall'⟩⟩

theorem choose (dst r : Register) (zero nonzero : UInt8) : Shaped (choose dst r zero nonzero) :=
  ⟨chooseShape dst r zero nonzero, rfl, fits_chooseShape .., all_chooseShape ..⟩

theorem combine (op : LogicalOp) (dst a b : Register) : Shaped (combine op dst a b) :=
  ⟨combineShape op dst a b, (instructions_combineShape ..).symm, fits_combineShape ..,
    all_combineShape ..⟩

end Shaped

theorem valid_of_immediate? {n : Number} {v : UInt8} (h : immediate? n = some v) :
    (Source.imm v).Valid := by
  unfold immediate? at h
  split at h
  · split at h
    · rename_i hrange
      cases h
      exact valid_imm (by omega)
    · cases h
  · cases h

/-- Comparing takes simple instructions. -/
theorem isSimple_compareLess (dst : Register) (ha : a.Valid) (hb : b.Valid) :
    Yields (compareLess dst a b) fun is => ∀ i ∈ is, i.IsSimple :=
  Yields.bind_any fun e => Yields.bind_any fun t => Yields.bind_any fun _ =>
    Yields.pure (isSimple_lessThan dst e t ha hb)

theorem isSimple_compareNot (dst : Register) (ha : a.Valid) (hb : b.Valid) :
    Yields (compareNot dst a b) fun is => ∀ i ∈ is, i.IsSimple := by
  refine Yields.bind_any fun q => (isSimple_compareLess q ha hb).bind fun code hcode =>
    Yields.bind_any fun _ => Yields.pure ?_
  intro i hi
  rcases mem_append.1 hi with hi | hi
  · exact hcode i hi
  · obtain rfl := mem_singleton.1 hi
    exact isSimple_arith (by decide) (valid_regSource q)

/-- The code of an operator has a shape. -/
theorem shaped_operate (op : BinaryOp) (dst : Register) (ha : a.Valid)
    (hb : b.Valid) : Yields (operate op dst a b) Shaped := by
  have hequal (same differ : UInt8) : Yields (compareEqual dst a b same differ) Shaped :=
    Yields.bind_any fun d => Yields.bind_any fun _ => Yields.pure
      (.append (.single (isSimple_arith ha hb)) (.choose ..))
  cases op with
  | add | sub | mul | div => exact Yields.pure (.single (isSimple_arith ha hb))
  | mod =>
    exact Yields.bind_any fun q => Yields.bind_any fun _ =>
      Yields.pure (.of_simple (isSimple_remainder dst q ha hb))
  | lt => exact (isSimple_compareLess dst ha hb).mono fun _ => .of_simple
  | gt => exact (isSimple_compareLess dst hb ha).mono fun _ => .of_simple
  | ltEq => exact (isSimple_compareNot dst hb ha).mono fun _ => .of_simple
  | gtEq => exact (isSimple_compareNot dst ha hb).mono fun _ => .of_simple
  | eq => exact hequal 1 0
  | notEq => exact hequal 0 1

end Assembly

end ImpMachine
