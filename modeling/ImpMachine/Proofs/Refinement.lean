import ImpMachine.Proofs.LoadValues
import ImpMachine.Proofs.Placement

/-!
# Assembled code does what linear code says

Linear code without calls, run directly on a store, and its assembled code, run on registers, go
hand in hand: names that are declared have registers with their words (`Related`). A body keeps the
registers of the names declared before it, so one map of registers serves all rounds of a loop
although further names are bound in its body.
-/

namespace ImpMachine

open Assembly Linear RegisterMap List Shape

variable {b' : Bindings} {m m' m₁ : RegisterMap} {known : List String} {r : Register}
variable {ts : List Register} {s : State} {mem : Memory} {pieces : List Piece}
variable {body other rest : Body} {shape : Shape} {table : FunctionTable} {cond : Operand}

/-! ## Related states -/

/-- Every known name has a register, and no name has two. Names of the top level are their own
keys. -/
structure RegisterMap.Serves (m : RegisterMap) (known : List String) : Prop where
  unique : m.Unique
  binds : m.Binds id known

theorem RegisterMap.Serves.extends (h : m.Serves known) (hextends : Extends m m') :
    m'.Serves known := by
  refine ⟨hextends.unique h.unique, fun x hx => ?_⟩
  obtain ⟨r, hr⟩ := h.binds x hx
  exact ⟨r, hextends.lookup h.unique hr⟩

/-- The same was printed, and the registers of the known names have the words of the store. -/
structure Related (m : RegisterMap) (known : List String) (s : State) (mem : Memory) : Prop where
  output : mem.output = s.output
  agrees : Agrees m id known s.store mem

namespace Related

variable {known' : List String} {mem' : Memory}

theorem mono (h : Related m known s mem) (hsub : known' ⊆ known) : Related m known' s mem :=
  ⟨h.output, h.agrees.mono hsub⟩

/-- Names keep their registers when more are bound. -/
theorem extend (h : Related m known s mem) (hm : m.Serves known) (hextends : Extends m m') :
    Related m' known s mem := by
  refine ⟨h.output, fun x hx r hr => ?_⟩
  obtain ⟨r', hr'⟩ := hm.binds x hx
  obtain rfl : r' = r := Option.some.inj ((hextends.lookup hm.unique hr').symm.trans hr)
  exact h.agrees x hx r' hr'

theorem restrict (h : Related m' known s mem) (hm : m.Serves known) (hextends : Extends m m') :
    Related m known s mem :=
  ⟨h.output, fun x hx r hr => h.agrees x hx r (hextends.lookup hm.unique hr)⟩

theorem preserves (h : Related m known s mem) (hpreserves : Memory.Preserves m mem mem') :
    Related m known s mem' :=
  ⟨hpreserves.1.trans h.output, h.agrees.preserves (.refl m) hpreserves⟩

end Related

/-! ## Instructions -/

section Instructions

variable {e : Operand}

/-- **An assignment.** -/
theorem related_draftAssign {x : String} (he : e.IsWord) (hm : m.Serves known)
    (hreads : e.reads ⊆ known) (h : draftAssign table x e ⟨m, none⟩ = .ok (pieces, b')) :
    ∃ m', b' = ⟨m', none⟩ ∧ Extends m m' ∧ m'.Serves (x :: known) ∧ ∃ f, Computes pieces f ∧
      ∀ s mem, Related m known s mem →
        ∃ v, s.eval? e = some v ∧ Related m' (x :: known) (s.set x v) (f mem) := by
  obtain ⟨binding, m₁, m₂, hbind, hload, rfl⟩ := draftAssign_eq_ok h
  obtain ⟨hextends, hholder⟩ := extends_of_bind hbind
  have hm₁ := hm.extends hextends
  have hlookup : m₁.lookup x = some binding.register := hm₁.unique.lookup hholder
  obtain ⟨hborrows, f, hf, hstores⟩ := load_stores he (hm₁.binds.mono hreads) ⟨_, hholder⟩ hload
  refine ⟨m₂, rfl, hextends.trans hborrows.extends, ⟨hborrows.unique hm₁.unique, ?_⟩, f, hf, ?_⟩
  · refine forall_mem_cons.2 ⟨⟨binding.register, ?_⟩, hm₁.binds.borrows hborrows⟩
    rw [hborrows.lookup, id, hlookup]
  · intro s mem hs
    obtain ⟨v, hv⟩ := he.exists_eval? s.store
    have hs₁ := hs.extend hm hextends
    have hstored := hstores s.store mem v (hs₁.agrees.mono hreads) hv
    refine ⟨v, hv, hstored.output.trans hs.output, fun y hy r hr => ?_⟩
    rw [hborrows.lookup] at hr
    by_cases hyx : y = x
    · subst hyx
      obtain rfl := Option.some.inj (hlookup.symm.trans hr)
      rw [hstored.get]
      exact (if_pos rfl).symm
    · -- another name has another register, which the code keeps
      have hne : r ≠ binding.register := by
        rintro rfl
        have hname := (holder_of_lookup hr).symm.trans hholder
        cases hname
        exact hyx rfl
      have hy : y ∈ known := (mem_cons.1 hy).resolve_left hyx
      rw [hstored.kept r ⟨_, holder_of_lookup hr⟩ hne, hs₁.agrees y hy r hr]
      exact (if_neg hyx).symm

/-- The code leaves an operand's value in a register and keeps states related. -/
def Tests (m : RegisterMap) (known : List String) (e : Operand) (r : Register)
    (pieces : List Piece) : Prop :=
  ∃ f, Computes pieces f ∧ ∀ s mem, Related m known s mem →
    s.eval? e = some ((f mem).get r) ∧ Related m known s (f mem)

theorem tests_of_fetches (he : e.IsWord) (hreads : e.reads ⊆ known)
    (h : Fetches id e m m' pieces (regSource r) ts) : Tests m known e r pieces := by
  obtain ⟨f, hf, hvalue⟩ := h.computes
  refine ⟨f, hf, fun s mem hrelated => ?_⟩
  obtain ⟨v, hv⟩ := he.exists_eval? s.store
  obtain ⟨hget, hpreserves⟩ := hvalue s.store mem v (hrelated.agrees.mono hreads) hv
  rw [Memory.value_regSource] at hget
  refine ⟨?_, hrelated.preserves hpreserves⟩
  rw [hget]
  exact hv

/-- **A test.** Right after its code the register has the operand's value. -/
theorem tests_draftTest (he : e.IsWord) (hm : m.Serves known)
    (hreads : e.reads ⊆ known) (h : draftTest table e ⟨m, none⟩ = .ok ((pieces, r), b')) :
    ∃ m', b' = ⟨m', none⟩ ∧ Borrows [] m m' ∧ Tests m known e r pieces := by
  obtain ⟨fetched, m₁, hfetch, rfl, rfl, rfl⟩ := draftTest_eq_ok h
  have hfetches := fetches_fetchRegister (load_stores he) (hm.binds.mono hreads) hfetch
  exact ⟨_, rfl, hfetches.borrows.releaseAll, tests_of_fetches he hreads hfetches⟩

theorem related_print (h : Related m known s mem) (v : Int64) :
    Related m known (s.print v) (mem.print v) :=
  ⟨congrArg (·.push v) h.output, h.agrees⟩

/-- **An instruction that stands alone.** -/
theorem related_draftPlain {i : Instr} (hi : i.IsCallFree) (hplain : i.IsPlain)
    (hm : m.Serves known) (huses : i.uses ⊆ known)
    (h : draftPlain table i ⟨m, none⟩ = .ok (pieces, b')) :
    ∃ m', b' = ⟨m', none⟩ ∧ Extends m m' ∧ m'.Serves (i.declares ++ known) ∧
      ∃ f, Computes pieces f ∧ ∀ s mem, Related m known s mem →
        ∃ s', s.execute i = some s' ∧ Related m' (i.declares ++ known) s' (f mem) := by
  cases i with
  | declare x e =>
    have hreads : e.reads ⊆ known := by simpa [Instr.uses, Instr.operands] using huses
    obtain ⟨_, _, ⟨⟩, h⟩ := run_bind_eq_ok.1 h
    obtain ⟨m', rfl, hextends, hm', f, hf, hrelated⟩ := related_draftAssign hi hm hreads h
    refine ⟨m', rfl, hextends, hm', f, hf, fun s mem hs => ?_⟩
    obtain ⟨v, hv, hs'⟩ := hrelated s mem hs
    exact ⟨s.set x v, by simp [State.execute, hv], hs'⟩
  | assign x e =>
    have hreads : e.reads ⊆ known := by
      simp only [Instr.uses, Instr.operands] at huses
      simpa using (cons_subset.1 huses).2
    obtain ⟨m', rfl, hextends, -, f, hf, hrelated⟩ := related_draftAssign hi hm hreads h
    refine ⟨m', rfl, hextends, hm.extends hextends, f, hf, fun s mem hs => ?_⟩
    obtain ⟨v, hv, hs'⟩ := hrelated s mem hs
    exact ⟨s.set x v, by simp [State.execute, hv], hs'.mono (subset_cons_self ..)⟩
  | print e =>
    have hreads : e.reads ⊆ known := by simpa [Instr.uses, Instr.operands] using huses
    obtain ⟨⟨code, r⟩, _, htest, ⟨⟩⟩ := run_bind_eq_ok.1 h
    obtain ⟨m', rfl, hborrows, f, hf, hrelated⟩ := tests_draftTest hi hm hreads htest
    have hextends := hborrows.extends
    have hout : ∀ i ∈ [Instruction.out r.byte], i.IsSimple := by simpa using isSimple_out r
    refine ⟨m', rfl, hextends, hm.extends hextends, _, hf.append (.of_simple hout),
      fun s mem hs => ?_⟩
    obtain ⟨hv, hs'⟩ := hrelated s mem hs
    refine ⟨s.print ((f mem).get r), by simp [State.execute, hv], ?_⟩
    have hprinted := related_print (hs'.extend hm hextends) ((f mem).get r)
    rw [← Memory.execute_out] at hprinted
    exact hprinted
  | expr e =>
    have hreads : e.reads ⊆ known := by simpa [Instr.uses, Instr.operands] using huses
    have hcall (callee : String) (args : List Operand) : e ≠ .call callee args := by
      rintro rfl
      cases hi
    obtain ⟨fetched, m₁, hfetch, rfl, rfl⟩ := draftExpr_eq_ok hcall h
    obtain ⟨-, hfetches⟩ := fetches_viaTemporary (load_stores hi) (hm.binds.mono hreads) hfetch
    have hextends := hfetches.borrows.releaseAll.extends
    obtain ⟨f, hf, hrelated⟩ := tests_of_fetches hi hreads hfetches
    refine ⟨_, rfl, hextends, hm.extends hextends, f, hf, fun s mem hs => ?_⟩
    obtain ⟨hv, hs'⟩ := hrelated s mem hs
    exact ⟨s, by simp [State.execute, hv], hs'.extend hm hextends⟩
  | call | funcDecl | endFunc | ret | macroDecl | endMacro => exact hi.elim
  | ifBegin | whileBegin | blockStart => cases hplain.1
  | endIf | endWhile | blockEnd => cases hplain.2.1
  | elseMark => exact absurd rfl hplain.2.2

end Instructions

/-! ## Loops -/

section Loops

variable {σ τ : Type} {R S : σ → τ → Prop}

/-- Related results are continued by related steps. -/
theorem rel_bind {x : Option σ} {y : Option τ} {f : σ → Option σ} {g : τ → Option τ}
    (h : Option.Rel R x y) (hfg : ∀ a b, R a b → Option.Rel S (f a) (g b)) :
    Option.Rel S (x.bind f) (y.bind g) := by
  cases h with
  | some h => exact hfg _ _ h
  | none => exact .none

theorem rel_mono {x : Option σ} {y : Option τ} (h : Option.Rel R x y)
    (hRS : ∀ a b, R a b → S a b) : Option.Rel S x y := by
  cases h with
  | some h => exact .some (hRS _ _ h)
  | none => exact .none

/-- Loops with equal tests and related steps take the same number of rounds. -/
theorem rel_repeatUntilZero {test : σ → Option Int64} {test' : τ → Option Int64}
    {step : σ → Option σ} {step' : τ → Option τ}
    (htest : ∀ a b, R a b → ∃ v, test a = some v ∧ test' b = some v)
    (hstep : ∀ a b, R a b → Option.Rel R (step a) (step' b)) (rounds : Nat) {a : σ} {b : τ}
    (h : R a b) :
    Option.Rel R (repeatUntilZero test step rounds a) (repeatUntilZero test' step' rounds b) := by
  induction rounds generalizing a b with
  | zero =>
    obtain ⟨v, hv, hv'⟩ := htest a b h
    by_cases hzero : v = 0
    · subst hzero
      rw [repeatUntilZero_of_zero 0 hv, repeatUntilZero_of_zero 0 hv']
      exact .some h
    · rw [repeatUntilZero_zero hv hzero, repeatUntilZero_zero hv' hzero]
      exact .none
  | succ rounds ih =>
    obtain ⟨v, hv, hv'⟩ := htest a b h
    by_cases hzero : v = 0
    · subst hzero
      rw [repeatUntilZero_of_zero _ hv, repeatUntilZero_of_zero _ hv']
      exact .some h
    · rw [repeatUntilZero_succ rounds hv hzero, repeatUntilZero_succ rounds hv' hzero]
      exact rel_bind (hstep a b h) fun a b h => ih h

end Loops

section LoopTests

variable {test : LoopTest}
/-- What is known of a loop's test once it was computed: its temporaries, and that after any body it
is computed again and gives them back. -/
structure LoopTested (table : FunctionTable) (known : List String) (cond : Operand)
    (test : LoopTest) (ts : List Register) (m m₁ : RegisterMap) : Prop where
  borrows : Borrows ts m m₁
  again : ∀ {m₂ pieces b'}, Extends m₁ m₂ → draftRepeat table test ⟨m₂, none⟩ = .ok (pieces, b') →
    ∃ m₃, b' = ⟨m₃, none⟩ ∧ Borrows [] m₂ m₃ ∧ Tests m₂ known cond test.register pieces
  ends : ∀ m₂, draftEndTest test ⟨m₂, none⟩ = .ok ((), ⟨m₂.releaseAll (ts.map Fin.val), none⟩)

theorem tests_variable {name : String} (hname : name ∈ known)
    (hr : m.lookup name = some r) : Tests m known (.var name) r [] := by
  refine ⟨id, .nil, fun s mem hs => ⟨?_, hs⟩⟩
  rw [id, hs.agrees name hname r hr]
  rfl

/-- A temporary has the operand's value after the operand was loaded into it. -/
theorem tests_temporary {t : Register} (he : cond.IsWord)
    (hreads : cond.reads ⊆ known) (ht : m.holder t = some .temporary)
    (h : Loads id cond t m m' pieces) : Tests m known cond t pieces := by
  obtain ⟨-, f, hf, hstores⟩ := h
  refine ⟨f, hf, fun s mem hs => ?_⟩
  obtain ⟨v, hv⟩ := he.exists_eval? s.store
  have hstored := hstores s.store mem v (hs.agrees.mono hreads) hv
  refine ⟨hstored.get ▸ hv, hstored.output.trans hs.output, fun x hx r hr => ?_⟩
  have hr' := holder_of_lookup hr
  have hne : r ≠ t := by
    rintro rfl
    rw [ht] at hr'
    cases hr'
  rw [hstored.kept r ⟨_, hr'⟩ hne]
  exact hs.agrees x hx r hr

/-- The first test of a loop, a variable or a temporary. -/
theorem loopTested_draftLoopTest (he : cond.IsWord) (hm : m.Serves known)
    (hreads : cond.reads ⊆ known)
    (h : draftLoopTest table cond ⟨m, none⟩ = .ok ((pieces, test), b')) :
    ∃ m₁ ts, b' = ⟨m₁, none⟩ ∧ Tests m known cond test.register pieces ∧
      LoopTested table known cond test ts m m₁ := by
  unfold draftLoopTest at h
  obtain ⟨_, _, ⟨⟩, h⟩ := run_bind_eq_ok.1 h
  split at h
  · rename_i name _
    have hname : name ∈ known := hreads (mem_singleton_self name)
    obtain ⟨r, hr⟩ := hm.binds name hname
    obtain ⟨_, m₁, hread, h⟩ := request_bind_eq_ok h
    rw [readVariable_of_lookup hr] at hread
    cases hread
    cases h
    refine ⟨m, [], rfl, tests_variable hname hr, .refl m, ?_, fun m₂ => rfl⟩
    intro m₂ pieces b' hextends hagain
    cases hagain
    exact ⟨m₂, rfl, .refl m₂, tests_variable hname (hextends.lookup hm.unique hr)⟩
  · obtain ⟨fetched, m₁, hfetch, ⟨⟩⟩ := request_bind_eq_ok h
    obtain ⟨-, hfetches⟩ := fetches_viaTemporary (load_stores he) (hm.binds.mono hreads) hfetch
    have hborrows := hfetches.borrows
    rw [temporaries_viaTemporary hfetch] at hborrows
    refine ⟨m₁, [fetched.place], rfl, tests_of_fetches he hreads hfetches, hborrows, ?_,
      fun m₂ => rfl⟩
    intro m₂ pieces b' hextends hagain
    obtain ⟨m₃, hload, rfl⟩ := environment_request_eq_ok hagain
    -- the temporary is held through the body
    have ht : m₂.holder fetched.place = some .temporary :=
      hextends.holder (hborrows.taken _ (mem_singleton_self _))
    have hm₂ := hm.extends (hborrows.extends.trans hextends)
    have hloads := load_stores he (hm₂.binds.mono hreads) ⟨_, ht⟩ hload
    exact ⟨m₃, rfl, hloads.1, tests_temporary he hreads ht hloads⟩

end LoopTests

/-! ## Constructs -/

section Constructs

variable {R : State → Memory → Prop} {t u : Shape} {b o c : Shape}

/-- From related states on a body and its code have related results, or none both. -/
def Simulates (R : State → Memory → Prop) (body : Body) (shape : Shape) : Prop :=
  ∀ bound s mem, R s mem → Option.Rel R (body.run bound s) (shape.run bound mem)

/-- The states are related, and the register has the value that the operand has in the store. -/
def Tested (R : State → Memory → Prop) (cond : Operand) (r : Register) (s : State)
    (mem : Memory) : Prop :=
  s.eval? cond = some (mem.get r) ∧ R s mem

/-- The shape computes an operand into a register and keeps states related. -/
def Decides (R : State → Memory → Prop) (cond : Operand) (r : Register) (t : Shape) : Prop :=
  ∀ bound s mem, R s mem → ∃ mem', t.run bound mem = some mem' ∧ Tested R cond r s mem'

theorem simulates_conditional (ht : Decides R cond r t) (hbody : Simulates R body b)
    (hrest : Simulates R rest c) :
    Simulates R (.conditional cond body rest) (t.append (.conditional r b c)) := by
  intro bound s mem hs
  obtain ⟨mem', hrun, hv, hs'⟩ := ht bound s mem hs
  rw [run_append, hrun, Option.bind_some]
  simp only [Body.run, Shape.run, hv, Option.bind_eq_bind, Option.bind_some]
  split
  · exact hrest bound s mem' hs'
  · exact rel_bind (hbody bound s mem' hs') (hrest bound)

/-- A choice is simulated side by side. -/
theorem simulates_choice (ht : Decides R cond r t) (hbody : Simulates R body b)
    (hother : Simulates R other o) (hrest : Simulates R rest c) :
    Simulates R (.choice cond body other rest) (t.append (.choice r b o c)) := by
  intro bound s mem hs
  obtain ⟨mem', hrun, hv, hs'⟩ := ht bound s mem hs
  rw [run_append, hrun, Option.bind_some]
  simp only [Body.run, Shape.run, hv, Option.bind_eq_bind, Option.bind_some]
  split
  · exact rel_bind (hother bound s mem' hs') (hrest bound)
  · exact rel_bind (hbody bound s mem' hs') (hrest bound)

/-- The test is made before the loop and at the end of every round. -/
theorem simulates_loop (ht : Decides R cond r t) (hu : Decides R cond r u)
    (hbody : Simulates R body b) (hrest : Simulates R rest c) :
    Simulates R (.loop cond body rest) (t.append (.loop r (b.append u) c)) := by
  intro bound s mem hs
  obtain ⟨mem', hrun, hs'⟩ := ht bound s mem hs
  rw [run_append, hrun, Option.bind_some]
  simp only [Body.run, Shape.run, Option.bind_eq_bind]
  have htest : ∀ s mem, Tested R cond r s mem →
      ∃ v, s.eval? cond = some v ∧ Memory.test r mem = some v :=
    fun s mem h => ⟨mem.get r, h.1, rfl⟩
  have hstep : ∀ s mem, Tested R cond r s mem →
      Option.Rel (Tested R cond r) (body.run bound s) ((b.append u).run bound mem) := by
    intro s mem hs
    rw [run_append, ← Option.bind_fun_some (body.run bound s)]
    refine rel_bind (hbody bound s mem hs.2) fun s mem hs => ?_
    obtain ⟨mem', hrun, hs'⟩ := hu bound s mem hs
    rw [hrun]
    exact .some hs'
  have hloop := rel_repeatUntilZero htest hstep bound hs'
  exact rel_bind hloop fun s mem h => hrest bound s mem h.2

theorem simulates_block (hbody : Simulates R body b) (hrest : Simulates R rest c) :
    Simulates R (.block body rest) (b.append c) := by
  intro bound s mem hs
  rw [run_append]
  exact rel_bind (hbody bound s mem hs) (hrest bound)

end Constructs

/-! ## Bodies -/

section Bodies

/-- A test of a later map serves for an earlier one. -/
theorem Tests.anti {e : Operand} (hm : m.Serves known)
    (hextends : Extends m m') (h : Tests m' known e r pieces) : Tests m known e r pieces := by
  obtain ⟨f, hf, htested⟩ := h
  refine ⟨f, hf, fun s mem hs => ?_⟩
  obtain ⟨hv, hs'⟩ := htested s mem (hs.extend hm hextends)
  exact ⟨hv, hs'.restrict hm hextends⟩

theorem Tests.exists_shape {e : Operand} (h : Tests m known e r pieces) :
    ∃ t : Shape, pieces = plain t.instructions ∧ t.Fits ∧ t.All Instruction.IsSimple ∧
      Decides (Related m known) e r t := by
  obtain ⟨f, ⟨t, hpieces, hfits, hall, hrun⟩, htested⟩ := h
  exact ⟨t, hpieces, hfits, hall,
    fun bound s mem hs => ⟨f mem, hrun bound mem, htested s mem hs⟩⟩

theorem Simulates.anti (hm : m.Serves known) (hextends : Extends m m')
    (h : Simulates (Related m' known) body shape) : Simulates (Related m known) body shape := by
  intro bound s mem hs
  exact rel_mono (h bound s mem (hs.extend hm hextends)) fun s mem hs => hs.restrict hm hextends

/-- Opening a block changes no register. -/
theorem Simulates.of_pushScope (h : Simulates (Related m.pushScope known) body shape) :
    Simulates (Related m known) body shape := by
  intro bound s mem hs
  exact rel_mono (h bound s mem ⟨hs.output, hs.agrees⟩) fun s mem hs => ⟨hs.output, hs.agrees⟩

/-- The draft has a shape that does what the body does. Names bound in the body take free registers,
so the map before it relates states throughout. -/
def Refines (m m' : RegisterMap) (known : List String) (body : Body) (d : Draft) : Prop :=
  Extends m m' ∧ ∃ shape, d.HasShape shape ∧ shape.All Instruction.IsSimple ∧
    Simulates (Related m known) body shape

namespace Refines

variable {m₂ m₃ : RegisterMap} {again : List Piece} {inner outer e : Draft}

theorem anti (hm : m.Serves known) (hextends : Extends m m₁) (h : Refines m₁ m₂ known body e) :
    Refines m m₂ known body e := by
  obtain ⟨hextends', s, hs, hall, hsim⟩ := h
  exact ⟨hextends.trans hextends', s, hs, hall, hsim.anti hm hextends⟩

theorem popScope (h : Refines m.pushScope m₁ known body e) :
    Refines m m₁.popScope known body e := by
  obtain ⟨hextends, s, hs, hall, hsim⟩ := h
  exact ⟨hextends.popScope, s, hs, hall, hsim.of_pushScope⟩

theorem conditional (htests : Tests m known cond r pieces) (hbody : Refines m m₁ known body inner)
    (hrest : Refines m m₂ known rest e) :
    Refines m m₂ known (.conditional cond body rest) (.code pieces (.conditional r inner e)) := by
  obtain ⟨t, rfl, htfits, htall, ht⟩ := htests.exists_shape
  obtain ⟨-, b, hb, hball, hbody⟩ := hbody
  obtain ⟨hextends, c, hc, hcall, hrest⟩ := hrest
  exact ⟨hextends, _, .code htfits (.conditional hb hc), all_append.2 ⟨htall, hball, hcall⟩,
    simulates_conditional ht hbody hrest⟩

theorem choice (htests : Tests m known cond r pieces) (hbody : Refines m m₁ known body inner)
    (hother : Refines m m₂ known other outer) (hrest : Refines m m₃ known rest e) :
    Refines m m₃ known (.choice cond body other rest) (.code pieces (.choice r inner outer e)) := by
  obtain ⟨t, rfl, htfits, htall, ht⟩ := htests.exists_shape
  obtain ⟨-, b, hb, hball, hbody⟩ := hbody
  obtain ⟨-, o, ho, hoall, hother⟩ := hother
  obtain ⟨hextends, c, hc, hcall, hrest⟩ := hrest
  exact ⟨hextends, _, .code htfits (.choice hb ho hc),
    all_append.2 ⟨htall, hball, hoall, hcall⟩, simulates_choice ht hbody hother hrest⟩

/-- A loop refines if its body and its test at the end do. -/
theorem loop (htests : Tests m known cond r pieces) (hbody : Refines m m₁ known body inner)
    (hagain : Tests m known cond r again) (hrest : Refines m m₂ known rest e) :
    Refines m m₂ known (.loop cond body rest)
      (.code pieces (.loop r (inner.append (.code again .nil)) e)) := by
  obtain ⟨t, rfl, htfits, htall, ht⟩ := htests.exists_shape
  obtain ⟨u, rfl, hufits, huall, hu⟩ := hagain.exists_shape
  obtain ⟨-, b, hb, hball, hbody⟩ := hbody
  obtain ⟨hextends, c, hc, hcall, hrest⟩ := hrest
  have hround : (inner.append (.code (plain u.instructions) .nil)).HasShape (b.append u) := by
    simpa using hb.append (.code hufits .nil)
  exact ⟨hextends, _, .code htfits (.loop hround hc),
    all_append.2 ⟨htall, all_append.2 ⟨hball, huall⟩, hcall⟩,
    simulates_loop ht hu hbody hrest⟩

theorem block (hbody : Refines m m₁ known body inner) (hrest : Refines m m₂ known rest e) :
    Refines m m₂ known (.block body rest) (inner.append e) := by
  obtain ⟨-, b, hb, hball, hbody⟩ := hbody
  obtain ⟨hextends, c, hc, hcall, hrest⟩ := hrest
  exact ⟨hextends, _, hb.append hc, all_append.2 ⟨hball, hcall⟩, simulates_block hbody hrest⟩

end Refines

/-- **The draft of a body does what the body does.** -/
theorem refines_draft {d : Draft} (hfree : ∀ i ∈ body.flatten, i.IsCallFree)
    (hdeclared : body.Declared known) (hm : m.Serves known)
    (h : body.draft table ⟨m, none⟩ = .ok (d, b')) :
    ∃ m', b' = ⟨m', none⟩ ∧ Refines m m' known body d := by
  -- every part is drafted in a later map than `m`, and its result is brought back to `m`
  induction body generalizing m known d b' with
  | nil =>
    cases h
    exact ⟨m, rfl, .refl m, .nil, .nil, trivial, fun bound s mem hs => .some hs⟩
  | plain i hi rest ih =>
    obtain ⟨pieces, _, e, hplain, hrest, rfl⟩ := Body.draft_plain_eq_ok h
    obtain ⟨huses, hdeclared⟩ := hdeclared
    obtain ⟨hifree, hfree⟩ := forall_mem_cons.1 hfree
    obtain ⟨m₁, rfl, hextends₁, hm₁, f, ⟨t, rfl, htfits, htall, htrun⟩, hrelated⟩ :=
      related_draftPlain hifree hi hm huses hplain
    obtain ⟨m₂, rfl, hextends₂, c, hc, hcall, hsim⟩ := ih hfree hdeclared hm₁ hrest
    refine ⟨m₂, rfl, hextends₁.trans hextends₂, t.append c, .code htfits hc,
      all_append.2 ⟨htall, hcall⟩, fun bound s mem hs => ?_⟩
    obtain ⟨s', hexecute, hs'⟩ := hrelated s mem hs
    rw [run_append, htrun, Option.bind_some]
    simp only [Body.run, hexecute, Option.bind_eq_bind, Option.bind_some]
    -- what the rest declares besides is forgotten
    refine rel_mono (hsim bound s' (f mem) hs') fun s mem hs => ?_
    exact (hs.mono (subset_append_right ..)).restrict hm hextends₁
  | conditional cond body rest ihbody ihrest =>
    simp only [Body.flatten, forall_mem_cons, forall_mem_append] at hfree
    obtain ⟨hcond, hbodyfree, -, hrestfree⟩ := hfree
    obtain ⟨hreads, hbodydeclared, hrestdeclared⟩ := hdeclared
    obtain ⟨pieces, r, _, inner, _, e, htest, hinner, hrest, rfl⟩ := Body.draft_conditional_eq_ok h
    obtain ⟨m₁, rfl, hborrows, htests⟩ := tests_draftTest hcond hm hreads htest
    have hextends := hborrows.extends
    obtain ⟨m₂, rfl, hbody⟩ := ihbody hbodyfree hbodydeclared (hm.extends hextends) hinner
    have hbody := hbody.anti hm hextends
    obtain ⟨m₃, rfl, hafter⟩ := ihrest hrestfree hrestdeclared (hm.extends hbody.1) hrest
    exact ⟨m₃, rfl, .conditional htests hbody (hafter.anti hm hbody.1)⟩
  | choice cond body other rest ihbody ihother ihrest =>
    simp only [Body.flatten, forall_mem_cons, forall_mem_append] at hfree
    obtain ⟨hcond, hbodyfree, -, hotherfree, -, hrestfree⟩ := hfree
    obtain ⟨hreads, hbodydeclared, hotherdeclared, hrestdeclared⟩ := hdeclared
    obtain ⟨pieces, r, _, inner, _, outer, _, e, htest, hinner, houter, hrest, rfl⟩ :=
      Body.draft_choice_eq_ok h
    obtain ⟨m₁, rfl, hborrows, htests⟩ := tests_draftTest hcond hm hreads htest
    have hextends := hborrows.extends
    obtain ⟨m₂, rfl, hbody⟩ := ihbody hbodyfree hbodydeclared (hm.extends hextends) hinner
    have hbody := hbody.anti hm hextends
    obtain ⟨m₃, rfl, hother⟩ := ihother hotherfree hotherdeclared (hm.extends hbody.1) houter
    have hother := hother.anti hm hbody.1
    obtain ⟨m₄, rfl, hafter⟩ := ihrest hrestfree hrestdeclared (hm.extends hother.1) hrest
    exact ⟨m₄, rfl, .choice htests hbody hother (hafter.anti hm hother.1)⟩
  | loop cond body rest ihbody ihrest =>
    simp only [Body.flatten, forall_mem_cons, forall_mem_append] at hfree
    obtain ⟨hcond, hbodyfree, -, hrestfree⟩ := hfree
    obtain ⟨hreads, hbodydeclared, hrestdeclared⟩ := hdeclared
    obtain ⟨pieces, test, _, inner, _, again, _, _, e, htest, hinner, hrepeat, hend, hrest, rfl⟩ :=
      Body.draft_loop_eq_ok h
    obtain ⟨m₁, ts, rfl, htests, htested⟩ := loopTested_draftLoopTest hcond hm hreads htest
    have hextends := htested.borrows.extends
    obtain ⟨m₂, rfl, hbody⟩ := ihbody hbodyfree hbodydeclared (hm.extends hextends) hinner
    obtain ⟨m₃, rfl, hborrows, hagain⟩ := htested.again hbody.1 hrepeat
    -- the temporary of the test is held through the body and given back behind the loop
    rw [htested.ends m₃] at hend
    cases hend
    have hextends' := Extends.releaseAll htested.borrows (hbody.1.trans hborrows.extends)
    have hbody := hbody.anti hm hextends
    obtain ⟨m₄, rfl, hafter⟩ := ihrest hrestfree hrestdeclared (hm.extends hextends') hrest
    exact ⟨m₄, rfl, .loop htests hbody (hagain.anti hm hbody.1) (hafter.anti hm hextends')⟩
  | block body rest ihbody ihrest =>
    simp only [Body.flatten, forall_mem_cons, forall_mem_append] at hfree
    obtain ⟨-, hbodyfree, -, hrestfree⟩ := hfree
    obtain ⟨hbodydeclared, hrestdeclared⟩ := hdeclared
    obtain ⟨inner, _, e, hinner, hrest, rfl⟩ := Body.draft_block_eq_ok h
    have hm' : m.pushScope.Serves known := ⟨hm.unique, hm.binds⟩
    obtain ⟨m₁, rfl, hbody⟩ := ihbody hbodyfree hbodydeclared hm' hinner
    have hbody := hbody.popScope
    obtain ⟨m₂, rfl, hafter⟩ := ihrest hrestfree hrestdeclared (hm.extends hbody.1) hrest
    exact ⟨m₂, rfl, .block hbody (hafter.anti hm hbody.1)⟩

end Bodies

end ImpMachine
