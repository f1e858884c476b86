import ImpMachine.Proofs.Holding
import ImpMachine.Proofs.SequenceValues

/-!
# What loaded operands compute

The code of an operand leaves the operand's value in its destination (`load_stores`). On the way it
writes registers that nobody holds, so variables and pending intermediate values stay as they are.
That is why a variable can be read in place: the code of the other side of an operator cannot
change it.
-/

namespace ImpMachine

open Assembly RegisterMap List Memory

variable {is : List Instruction} {dst r : Register} {source : Source} {name : String}
variable {ts : List Register} {m m' : RegisterMap} {mem mem' : Memory} {key : String → String}

/-! ## Code without loops -/

theorem plain_append (is js : List Instruction) : plain (is ++ js) = plain is ++ plain js :=
  map_append

/-- The code is a shape that takes every memory to a memory in this way. -/
def Computes (pieces : List Piece) (f : Memory → Memory) : Prop :=
  ∃ t : Shape, pieces = plain t.instructions ∧ t.Fits ∧ t.All Instruction.IsSimple ∧
    ∀ bound mem, t.run bound mem = some (f mem)

namespace Computes

variable {p q : List Piece} {f g : Memory → Memory}

theorem nil : Computes [] id :=
  ⟨.nil, rfl, trivial, trivial, fun _ _ => rfl⟩

/-- Code behind code computes the composition. -/
theorem append (hp : Computes p f) (hq : Computes q g) : Computes (p ++ q) (g ∘ f) := by
  obtain ⟨s, rfl, hsfits, hsall, hsrun⟩ := hp
  obtain ⟨t, rfl, htfits, htall, htrun⟩ := hq
  refine ⟨s.append t, ?_, Shape.fits_append.2 ⟨hsfits, htfits⟩, Shape.all_append.2 ⟨hsall, htall⟩,
    fun bound mem => ?_⟩
  · rw [Shape.instructions_append, plain_append]
  · rw [Shape.run_append, hsrun, Option.bind_some, htrun]
    rfl

/-- Simple instructions compute what executing them does. -/
theorem of_simple (h : ∀ i ∈ is, i.IsSimple) : Computes (plain is) (·.executeAll is) := by
  refine ⟨.straight is fun i hi => (h i hi).isPlain, ?_, Shape.fits_straight ..,
    Shape.all_straight h, fun bound mem => Shape.run_straight bound _ mem⟩
  rw [Shape.instructions_straight]

theorem of_choose (hne : dst ≠ r) (zero nonzero : UInt8) :
    Computes (plain (choose dst r zero nonzero)) fun mem =>
      mem.set dst (if mem.get r = 0 then Int64.ofNat zero.toNat else Int64.ofNat nonzero.toNat) :=
  ⟨chooseShape dst r zero nonzero, rfl, fits_chooseShape .., all_chooseShape ..,
    fun bound mem => run_chooseShape bound hne zero nonzero mem⟩

theorem of_combine (op : LogicalOp) {a b : Register} (ha : dst ≠ a) (hb : dst ≠ b) :
    Computes (plain (combine op dst a b)) fun mem =>
      mem.set dst (op.eval (mem.get a) (mem.get b)) :=
  ⟨combineShape op dst a b, by rw [instructions_combineShape], fits_combineShape ..,
    all_combineShape .., fun bound mem => run_combineShape bound op ha hb mem⟩

end Computes

/-! ## Held registers -/

namespace RegisterMap

/-- Somebody holds the register. -/
def IsHeld (m : RegisterMap) (r : Register) : Prop := ∃ holder, m.holder r = some holder

variable {t : Register}

/-- A held register is no free one. -/
theorem IsHeld.ne (h : m.IsHeld r) (ht : m.holder t = none) : r ≠ t := by
  rintro rfl
  obtain ⟨holder, h⟩ := h
  rw [ht] at h
  cases h

/-- What is held stays held. -/
theorem Borrows.isHeld (h : Borrows ts m m') (hr : m.IsHeld r) : m'.IsHeld r :=
  hr.imp fun _ => h.holder

theorem Borrows.isHeld_self (h : Borrows ts m m') (ht : t ∈ ts) : m'.IsHeld t :=
  ⟨_, h.taken t ht⟩

/-- The source operand is a constant or a held register. -/
def Ready (m : RegisterMap) (source : Source) : Prop :=
  (∃ v, source = .imm v ∧ source.Valid) ∨ ∃ r, source = regSource r ∧ m.IsHeld r

theorem Ready.valid (h : m.Ready source) : source.Valid := by
  rcases h with ⟨v, -, h⟩ | ⟨r, rfl, -⟩
  · exact h
  · exact valid_regSource r

theorem Ready.isHeld (h : m.Ready (regSource r)) : m.IsHeld r := by
  rcases h with ⟨v, h, -⟩ | ⟨r', h, hr'⟩
  · cases h
  · have hbyte := congrArg UInt8.toNat (Source.reg.inj h)
    rw [r.byte_toNat, r'.byte_toNat] at hbyte
    rwa [Fin.ext hbyte]

theorem Ready.ne (h : m.Ready source) (ht : m.holder t = none) : source ≠ regSource t := by
  rintro rfl
  exact h.isHeld.ne ht rfl

theorem Borrows.ready (h : Borrows ts m m') (hs : m.Ready source) : m'.Ready source :=
  hs.imp_right fun ⟨r, hr, hheld⟩ => ⟨r, hr, h.isHeld hheld⟩

end RegisterMap

namespace Memory

variable {mem'' : Memory} {v : Int64}
/-- Nothing was printed and no held register changed. -/
def Preserves (m : RegisterMap) (mem mem' : Memory) : Prop :=
  mem'.output = mem.output ∧ ∀ r, m.IsHeld r → mem'.get r = mem.get r

/-- The word is in the destination; nothing was printed and no other held register changed. -/
structure Stores (m : RegisterMap) (dst : Register) (v : Int64) (mem mem' : Memory) : Prop where
  get : mem'.get dst = v
  output : mem'.output = mem.output
  kept : ∀ r, m.IsHeld r → r ≠ dst → mem'.get r = mem.get r

theorem stores_of_eq_set (m : RegisterMap) (h : mem' = mem.set dst v) :
    Stores m dst v mem mem' := by
  subst h
  exact ⟨mem.get_set_self dst v, rfl, fun _ _ hne => mem.get_set_of_ne hne.symm v⟩

/-- Besides the destination only free registers were written. -/
theorem Keeps.stores (h : Keeps (dst :: ts) mem mem') (hfree : ∀ t ∈ ts, m.holder t = none)
    (hget : mem'.get dst = v) : Stores m dst v mem mem' := by
  refine ⟨hget, h.1, fun r hr hne => h.2 r fun hmem => ?_⟩
  rcases mem_cons.1 hmem with rfl | hmem
  · exact hne rfl
  · exact hr.ne (hfree r hmem) rfl

/-- Held registers are kept if the destination is not one of them. -/
theorem Stores.preserves (h : Stores m' dst v mem mem') (hborrows : Borrows ts m m')
    (hdst : m.holder dst = none) : Preserves m mem mem' :=
  ⟨h.output, fun r hr => h.kept r (hborrows.isHeld hr) (hr.ne hdst)⟩

theorem Preserves.trans (h : Preserves m mem mem') (hborrows : Borrows ts m m')
    (h' : Preserves m' mem' mem'') : Preserves m mem mem'' :=
  ⟨h'.1.trans h.1, fun r hr => (h'.2 r (hborrows.isHeld hr)).trans (h.2 r hr)⟩

theorem Preserves.stores (h : Preserves m mem mem') (hborrows : Borrows ts m m')
    (h' : Stores m' dst v mem' mem'') : Stores m dst v mem mem'' :=
  ⟨h'.get, h'.output.trans h.1,
    fun r hr hne => (h'.kept r (hborrows.isHeld hr) hne).trans (h.2 r hr)⟩

theorem Preserves.value (h : Preserves m mem mem') (hs : m.Ready source) :
    mem'.value source = mem.value source := by
  rcases hs with ⟨v, rfl, -⟩ | ⟨r, rfl, hr⟩
  · rfl
  · rw [value_regSource, value_regSource, h.2 r hr]

end Memory

/-! ## Operators -/

section Operators

variable {a b : Source}

/-- The request leaves the map as it was, and the code stores a word computed from the memory. -/
def Evaluates (m m' : RegisterMap) (dst : Register) (is : List Instruction)
    (value : Memory → Int64) : Prop :=
  Borrows [] m m' ∧ ∃ f, Computes (plain is) f ∧ ∀ mem, Memory.Stores m dst (value mem) mem (f mem)

theorem Evaluates.congr {value value' : Memory → Int64} (h : Evaluates m m' dst is value)
    (heq : ∀ mem, value mem = value' mem) : Evaluates m m' dst is value' :=
  funext heq ▸ h

theorem evaluates_arith (op : ArithOp) (ha : m.Ready a) (hb : m.Ready b) :
    Evaluates m m dst [arith op dst a b] fun mem => op.apply (mem.value a) (mem.value b) := by
  refine ⟨.refl m, _, .of_simple ?_, fun mem => ?_⟩
  · simpa using isSimple_arith ha.valid hb.valid
  · exact stores_of_eq_set m (mem.execute_arith op dst a b)

/-- **A comparison leaves its truth value.** -/
theorem evaluates_compareLess (ha : m.Ready a) (hb : m.Ready b)
    (h : compareLess dst a b m = .ok (is, m')) :
    Evaluates m m' dst is fun mem => truth (mem.value a < mem.value b) := by
  obtain ⟨e, m₁, he, h⟩ := run_bind_eq_ok.1 h
  obtain ⟨t, m₂, ht, h⟩ := run_bind_eq_ok.1 h
  obtain ⟨_, _, ⟨⟩, ⟨⟩⟩ := run_bind_eq_ok.1 h
  have he := Borrows.of_temp he
  have ht := Borrows.of_temp ht
  have hefree := he.free e (by simp)
  have htfree := ht.free t (by simp)
  have hne : e ≠ t := (he.isHeld_self (mem_singleton_self e)).ne htfree
  have hboth : Borrows [e, t] m m₂ := he.trans ht
  refine ⟨hboth.releaseAll, _, .of_simple (isSimple_lessThan dst e t ha.valid hb.valid),
    fun mem => ?_⟩
  refine (mem.keeps_lessThan dst e t a b).stores hboth.free ?_
  exact mem.executeAll_lessThan (ha.ne hefree) ((he.ready ha).ne htfree) (hb.ne hefree)
    ((he.ready hb).ne htfree) hne

/-- The opposite comparison, as a word. -/
theorem evaluates_compareNot (ha : m.Ready a) (hb : m.Ready b)
    (h : compareNot dst a b m = .ok (is, m')) :
    Evaluates m m' dst is fun mem => truth (mem.value b ≤ mem.value a) := by
  obtain ⟨q, m₁, hq, h⟩ := run_bind_eq_ok.1 h
  obtain ⟨less, m₂, hless, h⟩ := run_bind_eq_ok.1 h
  obtain ⟨_, _, ⟨⟩, ⟨⟩⟩ := run_bind_eq_ok.1 h
  have hq := Borrows.of_temp hq
  have hqfree := hq.free q (by simp)
  obtain ⟨hborrows, f, hf, hstores⟩ := evaluates_compareLess (hq.ready ha) (hq.ready hb) hless
  have hlast : ∀ i ∈ [arith .sub dst (.imm 1) (regSource q)], i.IsSimple := by
    simpa using isSimple_arith (by decide) (valid_regSource q)
  refine ⟨(hq.trans hborrows).releaseAll, _, plain_append .. ▸ hf.append (.of_simple hlast),
    fun mem => ?_⟩
  have hless := hstores mem
  have hset : (f mem).executeAll [arith .sub dst (.imm 1) (regSource q)] =
      (f mem).set dst (truth (mem.value b ≤ mem.value a)) := by
    simp [ArithOp.apply, hless.get, ← one_sub_truth_lt]
  refine (hless.preserves hq hqfree).stores hq ?_
  exact stores_of_eq_set m₁ hset

/-- The comparison for equality, by two differences. -/
theorem evaluates_compareEqual (hdst : m.IsHeld dst) (ha : m.Ready a) (hb : m.Ready b)
    {same differ : UInt8} (h : compareEqual dst a b same differ m = .ok (is, m')) :
    Evaluates m m' dst is fun mem =>
      if mem.value a = mem.value b then Int64.ofNat same.toNat else Int64.ofNat differ.toNat := by
  obtain ⟨d, m₁, hd, h⟩ := run_bind_eq_ok.1 h
  obtain ⟨_, _, ⟨⟩, ⟨⟩⟩ := run_bind_eq_ok.1 h
  have hd := Borrows.of_temp hd
  have hdfree := hd.free d (by simp)
  have hfirst : ∀ i ∈ [arith .sub d a b], i.IsSimple := by
    simpa using isSimple_arith ha.valid hb.valid
  refine ⟨hd.releaseAll, _,
    (Computes.of_simple hfirst).append (.of_choose (hdst.ne hdfree) same differ), fun mem => ?_⟩
  have hdifference := stores_of_eq_set m₁ (mem.execute_arith .sub d a b)
  have hzero : mem.value a - mem.value b = 0 ↔ mem.value a = mem.value b := by
    rw [Int64.sub_eq_iff_eq_add, Int64.zero_add]
  refine (hdifference.preserves hd hdfree).stores hd (stores_of_eq_set m₁ ?_)
  simp [ArithOp.apply, hzero]

/-- **An operator's code computes the operator.** -/
theorem evaluates_operate (op : BinaryOp) (hdst : m.IsHeld dst) (ha : m.Ready a) (hb : m.Ready b)
    (h : operate op dst a b m = .ok (is, m')) :
    Evaluates m m' dst is fun mem => op.eval (mem.value a) (mem.value b) := by
  cases op with
  | add | sub | mul | div =>
    cases h
    exact evaluates_arith _ ha hb
  | mod =>
    obtain ⟨q, m₁, hq, h⟩ := run_bind_eq_ok.1 h
    obtain ⟨_, _, ⟨⟩, ⟨⟩⟩ := run_bind_eq_ok.1 h
    have hq := Borrows.of_temp hq
    have hqfree := hq.free q (by simp)
    refine ⟨hq.releaseAll, _, .of_simple (isSimple_remainder dst q ha.valid hb.valid),
      fun mem => ?_⟩
    refine (mem.keeps_remainder dst q a b).stores hq.free ?_
    exact mem.executeAll_remainder (ha.ne hqfree) (hb.ne hqfree)
  | lt => exact evaluates_compareLess ha hb h
  | gt => exact evaluates_compareLess hb ha h
  | ltEq => exact evaluates_compareNot hb ha h
  | gtEq => exact evaluates_compareNot ha hb h
  | eq | notEq =>
    refine (evaluates_compareEqual hdst ha hb h).congr fun mem => ?_
    by_cases heq : mem.value a = mem.value b <;> simp [BinaryOp.eval, truth, heq]

end Operators

/-! ## Variables -/

section Variables

variable {names names' : List String} {store : Store}
/-- Every name has a register, which it holds under its key. -/
def RegisterMap.Binds (m : RegisterMap) (key : String → String) (names : List String) : Prop :=
  ∀ x ∈ names, ∃ r, m.lookup (key x) = some r

/-- The registers of the names have the words of the store. -/
def Agrees (m : RegisterMap) (key : String → String) (names : List String) (store : Store)
    (mem : Memory) : Prop :=
  ∀ x ∈ names, ∀ r, m.lookup (key x) = some r → mem.get r = store x

/-- Fewer names have registers too. -/
theorem RegisterMap.Binds.mono (h : m.Binds key names) (hsub : names' ⊆ names) :
    m.Binds key names' :=
  fun x hx => h x (hsub hx)

theorem RegisterMap.Binds.borrows (h : m.Binds key names) (hborrows : Borrows ts m m') :
    m'.Binds key names := by
  intro x hx
  rw [hborrows.lookup]
  exact h x hx

theorem Agrees.mono (h : Agrees m key names store mem) (hsub : names' ⊆ names) :
    Agrees m key names' store mem :=
  fun x hx => h x (hsub hx)

theorem Agrees.preserves (h : Agrees m key names store mem) (hborrows : Borrows ts m m')
    (hpreserves : Memory.Preserves m mem mem') : Agrees m' key names store mem' := by
  intro x hx r hr
  rw [hborrows.lookup] at hr
  rw [hpreserves.2 r ⟨_, holder_of_lookup hr⟩]
  exact h x hx r hr

end Variables

/-! ## Operands -/

section Operands

variable {env : Environment} {e : Operand} {pieces : List Piece} {fetched : Fetched Register}

/-- The request leaves the map as it was, and the code stores the operand's value. -/
def Loads (key : String → String) (e : Operand) (dst : Register) (m m' : RegisterMap)
    (pieces : List Piece) : Prop :=
  Borrows [] m m' ∧ ∃ f, Computes pieces f ∧ ∀ store mem v, Agrees m key e.reads store mem →
    e.eval? store = some v → Memory.Stores m dst v mem (f mem)

/-- Wherever the operand's variables have registers, its code stores its value. -/
def LoadsValue (env : Environment) (e : Operand) : Prop :=
  ∀ ⦃dst m m' pieces⦄, m.Binds env.key e.reads → m.IsHeld dst →
    load env e dst m = .ok (pieces, m') → Loads env.key e dst m m' pieces

/-- The request borrows the temporaries, and after the code the source has the operand's value. -/
structure Fetches (key : String → String) (e : Operand) (m m' : RegisterMap) (code : List Piece)
    (source : Source) (ts : List Register) : Prop where
  borrows : Borrows ts m m'
  ready : m'.Ready source
  computes : ∃ f, Computes code f ∧ ∀ store mem v, Agrees m key e.reads store mem →
    e.eval? store = some v → (f mem).value source = v ∧ Memory.Preserves m mem (f mem)

theorem readVariable_of_lookup (h : m.lookup (env.key name) = some r) :
    readVariable env name m = .ok ((r, []), m) := by
  refine run_bind_eq_ok.2 ⟨m, m, rfl, ?_⟩
  rw [h]
  rfl

/-- An operand in a temporary has its value there. -/
theorem fetches_viaTemporary (hload : LoadsValue env e) (hbinds : m.Binds env.key e.reads)
    (h : viaTemporary (load env e) m = .ok (fetched, m')) :
    m.holder fetched.place = none ∧
      Fetches env.key e m m' fetched.code (regSource fetched.place) fetched.temporaries := by
  obtain ⟨t, m₁, ht, h⟩ := run_bind_eq_ok.1 h
  obtain ⟨pieces, m₂, hpieces, ⟨⟩⟩ := run_bind_eq_ok.1 h
  have ht := Borrows.of_temp ht
  have htfree := ht.free t (by simp)
  have htheld := ht.isHeld_self (mem_singleton_self t)
  obtain ⟨hborrows, f, hf, hstores⟩ := hload (hbinds.borrows ht) htheld hpieces
  refine ⟨htfree, ht.trans hborrows, .inr ⟨t, rfl, hborrows.isHeld htheld⟩, f, hf, ?_⟩
  intro store mem v hagrees hv
  have hagrees : Agrees m₁ env.key e.reads store mem :=
    hagrees.preserves ht ⟨rfl, fun _ _ => rfl⟩
  have hstored := hstores store mem v hagrees hv
  exact ⟨(value_regSource ..).trans hstored.get, hstored.preserves ht htfree⟩

theorem temporaries_viaTemporary {load : Load} (h : viaTemporary load m = .ok (fetched, m')) :
    fetched.temporaries = [fetched.place] := by
  obtain ⟨t, m₁, -, h⟩ := run_bind_eq_ok.1 h
  obtain ⟨pieces, m₂, -, ⟨⟩⟩ := run_bind_eq_ok.1 h
  rfl

/-- A variable is read in place. -/
theorem fetches_variable (h : m.lookup (key name) = some r) :
    Fetches key (.var name) m m [] (regSource r) [] := by
  refine ⟨.refl m, .inr ⟨r, rfl, _, holder_of_lookup h⟩, id, .nil, ?_⟩
  intro store mem v hagrees hv
  obtain rfl : store name = v := Option.some.inj hv
  refine ⟨?_, rfl, fun _ _ => rfl⟩
  rw [value_regSource]
  exact hagrees name (mem_singleton_self name) r h

/-- An operand in a register, its own or a temporary. -/
theorem fetches_fetchRegister (hload : LoadsValue env e) (hbinds : m.Binds env.key e.reads)
    (h : fetchRegister env e (load env e) m = .ok (fetched, m')) :
    Fetches env.key e m m' fetched.code (regSource fetched.place) fetched.temporaries := by
  unfold fetchRegister at h
  split at h
  · rename_i name
    obtain ⟨r, hr⟩ := hbinds name (mem_singleton_self name)
    obtain ⟨_, _, hread, h⟩ := run_bind_eq_ok.1 h
    rw [readVariable_of_lookup hr] at hread
    cases hread
    cases h
    exact fetches_variable hr
  · exact (fetches_viaTemporary hload hbinds h).2

theorem value_of_immediate? {n : Int64} {v : UInt8} (h : immediate? (.int n) = some v) :
    Int64.ofNat v.toNat = n := by
  unfold immediate? word? at h
  split at h
  · rename_i w hw
    obtain rfl : n = w := Option.some.inj hw
    split at h
    · rename_i hrange
      obtain rfl := Option.some.inj h
      have hle : n.toInt.toNat ≤ maxAddress := by
        have hmax : (maxSourceImmediate : Int) ≤ maxAddress := by decide
        omega
      rw [toNat_ofNat_of_le hle, ← Int64.ofInt_eq_ofNat, Int.toNat_of_nonneg hrange.1,
        Int64.ofInt_toInt]
    · cases h
  · cases h

/-- A fetched operand has its value in its place. -/
theorem fetches_fetch (he : e.IsWord) (hload : LoadsValue env e) (hbinds : m.Binds env.key e.reads)
    {fetched : Fetched Source} (h : fetch env e (load env e) m = .ok (fetched, m')) :
    Fetches env.key e m m' fetched.code fetched.place fetched.temporaries := by
  unfold fetch at h
  cases hv : e.number?.bind immediate? with
  | some v =>
    rw [hv] at h
    cases h
    obtain ⟨n, hn, hv⟩ := Option.bind_eq_some_iff.1 hv
    refine ⟨.refl m, .inl ⟨v, rfl, valid_of_immediate? hv⟩, id, .nil, ?_⟩
    intro store mem w hagrees hw
    refine ⟨?_, rfl, fun _ _ => rfl⟩
    cases he with
    | int =>
      cases hn
      cases hw
      exact value_of_immediate? hv
    | _ => cases hn
  | none =>
    rw [hv] at h
    obtain ⟨fetched, m₁, hfetched, ⟨⟩⟩ := run_bind_eq_ok.1 h
    exact fetches_fetchRegister hload hbinds hfetched

/-- The second of two operands does not disturb the first. -/
theorem Fetches.both {e₁ e₂ : Operand} {m₁ m₂ : RegisterMap} {c₁ c₂ : List Piece} {a b : Source}
    {us : List Register} (h₁ : Fetches key e₁ m m₁ c₁ a ts) (h₂ : Fetches key e₂ m₁ m₂ c₂ b us) :
    Borrows (ts ++ us) m m₂ ∧ m₂.Ready a ∧ m₂.Ready b ∧ ∃ f, Computes (c₁ ++ c₂) f ∧
      ∀ store mem v w, Agrees m key e₁.reads store mem → Agrees m key e₂.reads store mem →
        e₁.eval? store = some v → e₂.eval? store = some w →
        (f mem).value a = v ∧ (f mem).value b = w ∧ Memory.Preserves m mem (f mem) := by
  obtain ⟨f, hf, hfirst⟩ := h₁.computes
  obtain ⟨g, hg, hsecond⟩ := h₂.computes
  refine ⟨h₁.borrows.trans h₂.borrows, h₂.borrows.ready h₁.ready, h₂.ready, g ∘ f, hf.append hg, ?_⟩
  intro store mem v w hagrees₁ hagrees₂ hv hw
  obtain ⟨hvalue₁, hpreserves₁⟩ := hfirst store mem v hagrees₁ hv
  obtain ⟨hvalue₂, hpreserves₂⟩ :=
    hsecond store (f mem) w (hagrees₂.preserves h₁.borrows hpreserves₁) hw
  refine ⟨?_, hvalue₂, hpreserves₁.trans h₁.borrows hpreserves₂⟩
  exact (hpreserves₂.value h₁.ready).trans hvalue₁

/-- **The code of an operand stores its value.** -/
theorem load_stores (he : e.IsWord) : LoadsValue env e := by
  induction he with
  | int n =>
    intro dst m m' pieces hbinds hdst h
    cases h
    refine ⟨.refl m, _, .of_simple (isSimple_loadConstant dst n), ?_⟩
    intro store mem v hagrees hv
    obtain rfl : n = v := Option.some.inj hv
    exact stores_of_eq_set m (mem.executeAll_loadConstant dst n)
  | var name =>
    intro dst m m' pieces hbinds hdst h
    obtain ⟨r, hr⟩ := hbinds name (mem_singleton_self name)
    obtain ⟨_, _, hread, h⟩ := run_bind_eq_ok.1 h
    rw [readVariable_of_lookup hr] at hread
    cases hread
    cases h
    have hcopy : ∀ i ∈ [copy dst r], i.IsSimple := by simpa using isSimple_copy dst r
    refine ⟨.refl m, _, .of_simple hcopy, ?_⟩
    intro store mem v hagrees hv
    obtain rfl : store name = v := Option.some.inj hv
    refine stores_of_eq_set m ((mem.execute_copy dst r).trans ?_)
    rw [hagrees name (mem_singleton_self name) r hr]
  | binary op ha hb iha ihb =>
    rename_i lhs rhs
    intro dst m m' pieces hbinds hdst h
    have hleft : m.Binds env.key lhs.reads := hbinds.mono (subset_append_left ..)
    have hright : m.Binds env.key rhs.reads := hbinds.mono (subset_append_right ..)
    obtain ⟨a, m₁, hfirst, h⟩ := run_bind_eq_ok.1 h
    obtain ⟨b, m₂, hsecond, h⟩ := run_bind_eq_ok.1 h
    obtain ⟨code, m₃, hcode, h⟩ := run_bind_eq_ok.1 h
    obtain ⟨_, _, ⟨⟩, ⟨⟩⟩ := run_bind_eq_ok.1 h
    have hfirst := fetches_fetch ha iha hleft hfirst
    have hsecond := fetches_fetch hb ihb (hright.borrows hfirst.borrows) hsecond
    obtain ⟨hborrows, hready, hready', f, hf, hvalues⟩ := hfirst.both hsecond
    -- the operator reads both sides where they were left, and stores into the destination
    obtain ⟨hsame, g, hg, hstores⟩ :=
      evaluates_operate op (hborrows.isHeld hdst) hready hready' hcode
    refine ⟨?_, _, hf.append hg, ?_⟩
    · have hall := hborrows.trans hsame
      rw [append_nil] at hall
      exact hall.releaseAll
    · intro store mem v hagrees hv
      obtain ⟨x, y, hx, hy, rfl⟩ := Operand.eval?_binary_eq_some.1 hv
      obtain ⟨hvalue, hvalue', hpreserves⟩ := hvalues store mem x y
        (hagrees.mono (subset_append_left ..)) (hagrees.mono (subset_append_right ..))
        hx hy
      have hstored := hstores (f mem)
      dsimp only at hstored
      rw [hvalue, hvalue'] at hstored
      exact hpreserves.stores hborrows hstored
  | unary op ha iha =>
    intro dst m m' pieces hbinds hdst h
    cases op with
    | neg =>
      obtain ⟨a, m₁, hfetched, h⟩ := run_bind_eq_ok.1 h
      obtain ⟨_, _, ⟨⟩, ⟨⟩⟩ := run_bind_eq_ok.1 h
      have hfetched := fetches_fetch ha iha hbinds hfetched
      obtain ⟨f, hf, hvalue⟩ := hfetched.computes
      obtain ⟨-, g, hg, hstores⟩ := evaluates_arith .sub (.inl ⟨0, rfl, by decide⟩) hfetched.ready
      refine ⟨hfetched.borrows.releaseAll, _, hf.append hg, ?_⟩
      intro store mem v hagrees hv
      obtain ⟨x, hx, rfl⟩ := Operand.eval?_unary_eq_some.1 hv
      obtain ⟨hvalue, hpreserves⟩ := hvalue store mem x hagrees hx
      have hstored := hstores (f mem)
      dsimp only at hstored
      rw [hvalue] at hstored
      exact hpreserves.stores hfetched.borrows hstored
    | not =>
      obtain ⟨a, m₁, hfetched, h⟩ := run_bind_eq_ok.1 h
      obtain ⟨_, _, ⟨⟩, ⟨⟩⟩ := run_bind_eq_ok.1 h
      obtain ⟨hfree, hfetched⟩ := fetches_viaTemporary iha hbinds hfetched
      obtain ⟨f, hf, hvalue⟩ := hfetched.computes
      refine ⟨hfetched.borrows.releaseAll, _, hf.append (.of_choose (hdst.ne hfree) 1 0), ?_⟩
      intro store mem v hagrees hv
      obtain ⟨x, hx, rfl⟩ := Operand.eval?_unary_eq_some.1 hv
      obtain ⟨hvalue, hpreserves⟩ := hvalue store mem x hagrees hx
      rw [value_regSource] at hvalue
      refine hpreserves.stores hfetched.borrows (stores_of_eq_set m₁ ?_)
      by_cases hzero : x = 0 <;> simp [hvalue, hzero, UnaryOp.eval, truth]
  | logical op ha hb iha ihb =>
    rename_i lhs rhs
    intro dst m m' pieces hbinds hdst h
    have hleft : m.Binds env.key lhs.reads := hbinds.mono (subset_append_left ..)
    have hright : m.Binds env.key rhs.reads := hbinds.mono (subset_append_right ..)
    obtain ⟨a, m₁, hfirst, h⟩ := run_bind_eq_ok.1 h
    obtain ⟨b, m₂, hsecond, h⟩ := run_bind_eq_ok.1 h
    obtain ⟨_, _, ⟨⟩, ⟨⟩⟩ := run_bind_eq_ok.1 h
    obtain ⟨hfree, hfirst⟩ := fetches_viaTemporary iha hleft hfirst
    obtain ⟨hfree', hsecond⟩ := fetches_viaTemporary ihb (hright.borrows hfirst.borrows) hsecond
    obtain ⟨hborrows, -, -, f, hf, hvalues⟩ := hfirst.both hsecond
    -- both temporaries were free when the destination was held
    have hne : dst ≠ a.place := hdst.ne hfree
    have hne' : dst ≠ b.place := (hfirst.borrows.isHeld hdst).ne hfree'
    refine ⟨hborrows.releaseAll, _, hf.append (.of_combine op hne hne'), ?_⟩
    intro store mem v hagrees hv
    obtain ⟨x, y, hx, hy, rfl⟩ := Operand.eval?_logical_eq_some.1 hv
    obtain ⟨hvalue, hvalue', hpreserves⟩ := hvalues store mem x y
      (hagrees.mono (subset_append_left ..)) (hagrees.mono (subset_append_right ..)) hx hy
    rw [value_regSource] at hvalue hvalue'
    refine hpreserves.stores hborrows (stores_of_eq_set m₂ ?_)
    simp [hvalue, hvalue']

end Operands

end ImpMachine
