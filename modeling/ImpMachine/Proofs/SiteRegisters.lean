import ImpMachine.Proofs.Stretches

/-!
# Registers at the points of a body

What a permit says of a body holds at every point to which lowering comes (`Point.Leads.allowed`), and
each stretch keeps to a permit of its own, which begins where the stretch does
(`Point.HasSite.framed`). So nothing that is held at a point is given up while the rest of its list
is lowered.
-/

namespace ImpMachine

open Assembly Linear RegisterMap Permit

variable {pieces code : List Piece} {test : LoopTest} {signatures : Signatures} {m m' : RegisterMap}
variable {r t : Register} {i : Instr} {body : Body} {d : Draft} {b b' : Bindings} {s : Option Scope}
variable {σ : Site} {table : FunctionTable} {cond : Operand} {p : Permit} {P : Point}

/-! ## Steps of drafting under a permit -/

namespace Permit

variable {lent : List Register}

/-- The step kept to the permit: it led to a scope, and the registers that its code sets are
owned. -/
structure Respects (p : Permit) (b b' : Bindings) (scope : Option Scope) (code : List Piece) :
    Prop where
  scope_eq : b'.scope = scope
  since : p.Since b'.registers
  steady : Steady b.registers b'.registers
  sets : ∀ {r}, Sets (Piece.all code) r → p.Owned b'.registers r

/-- The registers that code may set, by what holds them at the start. -/
def MaySet (p : Permit) (r : Register) : Prop :=
  p.start.holder r = none ∨ (∃ x ∈ p.assigned, p.start.holder r = some (.named x)) ∨ r ∈ p.lent

theorem Owned.maySet (h : p.Owned m r) : p.MaySet r :=
  h.imp_left And.left

/-- Code made from the start of the permit on. -/
structure Makes (p : Permit) (m : RegisterMap) (code : List Piece) : Prop where
  since : p.Since m
  steady : Steady p.start m
  sets : ∀ {r}, Sets (Piece.all code) r → p.MaySet r

theorem Makes.kept (h : p.Makes m code) : Kept p.start m :=
  h.since.holder

/-- A computation that begins where its permit does. -/
theorem Obeys.of_start {α : Type} {x : Allocation α} {φ : α → Prop} {Q : α → Register → Prop}
    (h : p.Owns (· ∈ p.lent) x φ Q) {a : α} (ha : x p.start = .ok (a, m)) :
    p.Since m ∧ Steady p.start m ∧ φ a ∧ ∀ r, Q a r → p.MaySet r := by
  obtain ⟨-, hm, hsteady, hφ, hQ⟩ := h p.start a m trivial (since_start _ _ _ _)
    (fun r hr => .inr (.inr hr)) ha
  exact ⟨hm, hsteady, hφ, fun r hr => (hQ r hr).maySet⟩

/-- A computation that needs no register of its own. -/
theorem Obeys.since {α : Type} {x : Allocation α} {φ : α → Prop} {Q : α → Register → Prop}
    (h : p.Owns (fun _ => False) x φ Q) {a : α} (hm : p.Since m)
    (ha : x m = .ok (a, m')) : p.Since m' :=
  (h m a m' trivial hm (fun _ hr => hr.elim) ha).2.1

section Operands

variable {env : Environment} {e : Operand}

theorem admits_start (lent : List Register) :
    (Permit.mk (e.mentions env.signatures env.scope) (e.assigns env.signatures) lent m).Admits
      env.signatures env.scope e :=
  ⟨fun _ => id, fun _ => id⟩

/-- Loading an operand sets the register asked for. -/
theorem makes_load {dst : Register} (h : load env e dst m = .ok (code, m')) :
    (Permit.mk (e.mentions env.signatures env.scope) (e.assigns env.signatures) [dst] m).Makes m'
      code := by
  obtain ⟨hm, hsteady, -, hsets⟩ := Obeys.of_start
    (owns_load e (admits_start [dst]) _ dst (List.mem_singleton_self dst)) h
  exact ⟨hm, hsteady, fun {r} => hsets r⟩

/-- Fetching an operand sets registers that were free, or parameters. -/
theorem makes_fetch {f : Fetched Source} (h : fetch env e (load env e) m = .ok (f, m')) :
    (Permit.mk (e.mentions env.signatures env.scope) (e.assigns env.signatures) [] m).Makes m'
      f.code := by
  obtain ⟨hm, hsteady, -, hsets⟩ := Obeys.of_start
    (owns_fetch (admits_start []) (owns_load e (admits_start []))) h
  exact ⟨hm, hsteady, fun {r} => hsets r⟩

/-- A temporary that was free is held when the value is in it. -/
theorem makes_viaTemporary {f : Fetched Register} (h : viaTemporary (load env e) m = .ok (f, m')) :
    (Permit.mk (e.mentions env.signatures env.scope) (e.assigns env.signatures) [] m).Makes m'
        f.code ∧
      m.holder f.place = none ∧ m'.holder f.place = some .temporary := by
  obtain ⟨hm, hsteady, hfree, hsets⟩ := Obeys.of_start
    (owns_viaTemporary (owns_load e (admits_start []))) h
  refine ⟨⟨hm, hsteady, fun {r} hr => hsets r (.inl hr)⟩, hfree.1, ?_⟩
  obtain ⟨t, m₁, ht, h⟩ := run_bind_eq_ok.1 h
  obtain ⟨code, m₂, hcode, h⟩ := run_bind_eq_ok.1 h
  cases h
  obtain ⟨-, rfl⟩ := temp_eq_ok ht
  exact (makes_load hcode).kept (by rw [holder_take, if_pos rfl])

end Operands

theorem Since.congr {ss : List String} (h : p.Since m) :
    (Permit.mk p.names ss lent p.start).Since m :=
  ⟨h.holder, h.marked, h.named, h.frames, h.unique⟩

theorem respects_plain (hi : i.IsPlain) (hs : b.scope = s)
    (hp : p.Grants (i.mentions table.signatures s) (i.assigns table.signatures s))
    (hb : p.Since b.registers) (h : draftPlain table i b = .ok (pieces, b')) :
    p.Respects b b' (i.scopeAfter s) pieces := by
  obtain ⟨hscope, hb', hsteady, -, hsets⟩ :=
    ownsIn_draftPlain hi hp (P := fun _ => False) b pieces b' hs hb nofun h
  exact ⟨hscope, hb', hsteady, fun {r} => hsets r⟩

theorem respects_test {test : Register} (hs : b.scope = s)
    (hp : p.Grants ((Instr.ifBegin cond).mentions table.signatures s)
      ((Instr.ifBegin cond).assigns table.signatures s)) (hb : p.Since b.registers)
    (h : draftTest table cond b = .ok ((pieces, test), b')) : p.Respects b b' s pieces := by
  have hcond := admits_of_mem_operands hp cond (List.mem_singleton_self cond)
  obtain ⟨hscope, hb', hsteady, -, hsets⟩ :=
    ownsIn_draftTest hcond (P := fun _ => False) b _ b' hs hb nofun h
  exact ⟨hscope, hb', hsteady, fun {r} => hsets r⟩

/-- The register of a loop's test was free at the start, and it is owned. -/
theorem respects_loopTest (hs : b.scope = s)
    (hp : p.Grants ((Instr.whileBegin cond).mentions table.signatures s)
      ((Instr.whileBegin cond).assigns table.signatures s))
    (hb : p.Since b.registers) (h : draftLoopTest table cond b = .ok ((pieces, test), b')) :
    p.Respects b b' s pieces ∧ ∀ t c, test = .computed t c →
      c = cond ∧ p.start.holder t = none ∧ p.Owned b'.registers t := by
  have hcond := admits_of_mem_operands hp cond (List.mem_singleton_self cond)
  obtain ⟨hscope, hb', hsteady, htest, hsets⟩ :=
    ownsIn_draftLoopTest hcond (P := fun _ => False) b _ b' hs hb nofun h
  refine ⟨⟨hscope, hb', hsteady, fun {r} hr => hsets r (.inl hr)⟩, fun t c heq => ?_⟩
  obtain ⟨hc, ht⟩ := htest t c heq
  exact ⟨hc, ht, hsets t (.inr ⟨c, heq⟩)⟩

theorem respects_repeat {again : List Piece} (hs : b.scope = s)
    (hp : p.Grants ((Instr.whileBegin cond).mentions table.signatures s)
      ((Instr.whileBegin cond).assigns table.signatures s))
    (htest : ∀ t c, test = .computed t c → c = cond ∧ p.Owned b.registers t)
    (hb : p.Since b.registers) (h : draftRepeat table test b = .ok (again, b')) :
    p.Respects b b' s again := by
  have hcond := admits_of_mem_operands hp cond (List.mem_singleton_self cond)
  obtain ⟨hscope, hb', hsteady, -, hsets⟩ :=
    ownsIn_draftRepeat (P := p.Owned b.registers) htest hcond b again b' hs hb (fun _ => id) h
  exact ⟨hscope, hb', hsteady, fun {r} => hsets r⟩

theorem respects_endTest (hs : b.scope = s)
    (htest : ∀ t c, test = .computed t c → p.start.holder t = none) (hb : p.Since b.registers)
    (h : draftEndTest test b = .ok ((), b')) : p.Respects b b' s [] := by
  obtain ⟨hscope, hb', hsteady, -⟩ :=
    ownsIn_draftEndTest htest (P := fun _ => False) b () b' hs hb nofun h
  exact ⟨hscope, hb', hsteady, fun hr => (not_sets_nil _ hr).elim⟩

theorem respects_draft (hs : b.scope = s)
    (hp : p.Grants (body.mentions table.signatures s) (body.assigns table.signatures s))
    (hb : p.Since b.registers) (h : body.draft table b = .ok (d, b')) :
    p.Respects b b' (body.scopeAfter s) d.leaves := by
  obtain ⟨hscope, hb', hsteady, -, hsets⟩ :=
    owns_draft hp (P := fun _ => False) b d b' hs hb nofun h
  exact ⟨hscope, hb', hsteady, fun {r} => hsets r⟩

theorem grants_own {names assigned : List String} :
    (Permit.mk names assigned lent m).Grants names assigned :=
  ⟨fun _ => id, fun _ => id⟩

/-- An instruction keeps to the permit of what it mentions and sets. -/
theorem respects_own_plain (hi : i.IsPlain) (h : draftPlain table i b = .ok (pieces, b')) :
    (Permit.mk (i.mentions table.signatures b.scope) (i.assigns table.signatures b.scope) []
      b.registers).Respects b b' (i.scopeAfter b.scope) pieces :=
  respects_plain hi rfl grants_own (since_start _ _ _ _) h

/-- A body keeps to the permit of what it mentions and sets. -/
theorem respects_own_draft (h : body.draft table b = .ok (d, b')) :
    (Permit.mk (body.mentions table.signatures b.scope) (body.assigns table.signatures b.scope) []
      b.registers).Respects b b' (body.scopeAfter b.scope) d.leaves :=
  respects_draft rfl grants_own (since_start _ _ _ _) h

end Permit

/-! ## From point to point -/

namespace Point

/-- The keys that are mentioned from a point on. -/
def mentions (signatures : Signatures) (P : Point) : List String :=
  P.rest.mentions signatures P.bindings.scope

/-- The keys that are set from a point on. -/
def assigns (signatures : Signatures) (P : Point) : List String :=
  P.rest.assigns signatures P.bindings.scope

variable {Q : Point}

/-- The permit has what is mentioned and set from the point on, and reaches the point. -/
def Allowed (p : Permit) (signatures : Signatures) (P : Point) : Prop :=
  p.Grants (P.mentions signatures) (P.assigns signatures) ∧ p.Since P.bindings.registers

theorem allowed_of_respects {rest : Body} {offset : Nat} (h : p.Respects b b' s code)
    (hp : p.Grants (rest.mentions signatures s) (rest.assigns signatures s)) :
    Allowed p signatures ⟨rest, b', offset⟩ := by
  cases h.scope_eq
  exact ⟨hp, h.since⟩

/-- What the permit allows and what came about under it, one point further. -/
theorem Next.allowed (h : P.Next table Q) (hP : P.Allowed p table.signatures) :
    Q.Allowed p table.signatures := by
  obtain ⟨hp, hP⟩ := hP
  -- the grant covers what is lowered before `Q`, so the registers there are still within the permit
  cases h with
  | plain hpieces =>
    obtain ⟨hfirst, hrest⟩ := grants_append.1 hp
    exact allowed_of_respects (respects_plain ‹_› rfl hfirst hP hpieces) hrest
  | ifBody htest | choiceBody htest =>
    obtain ⟨hfirst, hparts⟩ := grants_append.1 hp
    obtain ⟨hbody, -⟩ := grants_append.1 hparts
    exact allowed_of_respects (respects_test rfl hfirst hP htest) hbody
  | ifRest htest hinner =>
    obtain ⟨hfirst, hparts⟩ := grants_append.1 hp
    obtain ⟨hbody, hrest⟩ := grants_append.1 hparts
    have hb₁ := respects_test rfl hfirst hP htest
    have hb₂ := respects_draft hb₁.scope_eq hbody hb₁.since hinner
    exact allowed_of_respects hb₂ hrest
  | choiceOther htest hinner =>
    obtain ⟨hfirst, hparts⟩ := grants_append.1 hp
    obtain ⟨hbody, hparts⟩ := grants_append.1 hparts
    obtain ⟨hother, -⟩ := grants_append.1 hparts
    have hb₁ := respects_test rfl hfirst hP htest
    have hb₂ := respects_draft hb₁.scope_eq hbody hb₁.since hinner
    exact allowed_of_respects hb₂ hother
  | choiceRest htest hinner houter =>
    obtain ⟨hfirst, hparts⟩ := grants_append.1 hp
    obtain ⟨hbody, hparts⟩ := grants_append.1 hparts
    obtain ⟨hother, hrest⟩ := grants_append.1 hparts
    have hb₁ := respects_test rfl hfirst hP htest
    have hb₂ := respects_draft hb₁.scope_eq hbody hb₁.since hinner
    have hb₃ := respects_draft hb₂.scope_eq hother hb₂.since houter
    exact allowed_of_respects hb₃ hrest
  | loopBody htest =>
    obtain ⟨hfirst, hparts⟩ := grants_append.1 hp
    obtain ⟨hbody, -⟩ := grants_append.1 hparts
    exact allowed_of_respects (respects_loopTest rfl hfirst hP htest).1 hbody
  | loopRest htest hinner hagain hend =>
    obtain ⟨hfirst, hparts⟩ := grants_append.1 hp
    obtain ⟨hbody, hparts⟩ := grants_append.1 hparts
    obtain ⟨hcond, hrest⟩ := grants_append.1 hparts
    obtain ⟨hb₁, hfree⟩ := respects_loopTest rfl hfirst hP htest
    have hb₂ := respects_draft hb₁.scope_eq hbody hb₁.since hinner
    have hb₃ := respects_repeat hb₂.scope_eq hcond
      (fun t c heq => ⟨(hfree t c heq).1, (hfree t c heq).2.2.mono hb₂.steady⟩) hb₂.since hagain
    have hb₄ := respects_endTest hb₃.scope_eq (fun t c heq => (hfree t c heq).2.1) hb₃.since
      hend
    exact allowed_of_respects hb₄ hrest
  | blockBody => exact ⟨(grants_append.1 hp).1, hP.pushScope⟩
  | @blockRest body rest b b₁ offset inner hinner =>
    obtain ⟨hbody, hrest⟩ := grants_append.1 hp
    have hb₁ := respects_draft (b := { b with registers := b.registers.pushScope }) rfl hbody
      hP.pushScope hinner
    have hdepth : p.start.frames.length < b₁.registers.frames.length := by
      have hlength : b₁.registers.frames.length = b.registers.frames.length + 1 := hb₁.steady.depth
      have hle := hP.frames.length_le
      dsimp only at hle
      omega
    dsimp only [Allowed, mentions, assigns]
    rw [hb₁.scope_eq]
    exact ⟨hrest, hb₁.since.popScope hdepth⟩

theorem Leads.allowed (h : P.Leads table Q) (hP : P.Allowed p table.signatures) :
    Q.Allowed p table.signatures := by
  induction h with
  | refl => exact hP
  | tail _ hnext ih => exact hnext.allowed ih

end Point

/-! ## Stretches -/

/-- The instruction of which the stretch is a part. -/
def Stretch.instr : Stretch → Instr
  | .plain i => i
  | .test cond => .ifBegin cond
  | .loopTest cond | .again _ cond => .whileBegin cond

namespace Site

/-- The keys that a stretch mentions. -/
def mentions (signatures : Signatures) (σ : Site) : List String :=
  σ.stretch.instr.mentions signatures σ.before.scope

/-- The keys that a stretch sets. -/
def assigns (signatures : Signatures) (σ : Site) : List String :=
  σ.stretch.instr.assigns signatures σ.before.scope

/-- What a stretch does with the registers: it gives up nothing that is held, and only names that it
mentions take registers. Its code sets registers that were free, those of names that it sets, and
for a test made again that test's temporary. -/
structure Framed (signatures : Signatures) (σ : Site) : Prop where
  scope_eq : σ.after.scope = σ.stretch.instr.scopeAfter σ.before.scope
  since : (Permit.mk (σ.mentions signatures) (σ.assigns signatures) []
    σ.before.registers).Since σ.after.registers
  steady : Steady σ.before.registers σ.after.registers
  sets : ∀ {r}, Sets (Piece.all σ.code) r → σ.before.registers.holder r = none ∨
    (∃ x ∈ σ.assigns signatures, σ.before.registers.holder r = some (.named x)) ∨
      σ.before.registers.holder r = some .temporary

end Site

/-- The temporary of a loop's test. -/
def Assembly.LoopTest.temporaries : LoopTest → List Register
  | .variable _ => []
  | .computed t _ => [t]

theorem Assembly.LoopTest.mem_temporaries : t ∈ test.temporaries ↔ ∃ c, test = .computed t c := by
  rcases test with r | ⟨r, c⟩
  · simp [temporaries]
  · simp [temporaries, eq_comm]

/-- The register that a loop's test is computed into is a temporary. -/
theorem holder_of_draftLoopTest {c : Operand}
    (h : draftLoopTest table cond b = .ok ((pieces, .computed t c), b')) :
    b'.registers.holder t = some .temporary := by
  obtain ⟨_, _, ⟨⟩, h⟩ := run_bind_eq_ok.1 h
  split at h
  · obtain ⟨_, _, -, ⟨⟩⟩ := run_bind_eq_ok.1 h
  · obtain ⟨f, b₁, hf, ⟨⟩⟩ := run_bind_eq_ok.1 h
    obtain ⟨m, hm, rfl⟩ := request_eq_ok hf
    exact (makes_viaTemporary hm).2.2

namespace Point

variable {Q : Point}

/-- The permit reaches the stretches of a point. -/
theorem Begins.since (h : P.Begins table σ) (hP : P.Allowed p table.signatures) :
    p.Grants (σ.mentions table.signatures) (σ.assigns table.signatures) ∧
      p.Since σ.before.registers := by
  obtain ⟨hp, hP⟩ := hP
  cases h with
  | plain | ifTest | choiceTest | loopTest => exact ⟨(grants_append.1 hp).1, hP⟩
  | again htest hinner hagain =>
    obtain ⟨hfirst, hparts⟩ := grants_append.1 hp
    obtain ⟨hbody, hparts⟩ := grants_append.1 hparts
    obtain ⟨hb₁, -⟩ := respects_loopTest rfl hfirst hP htest
    have hb₂ := respects_draft hb₁.scope_eq hbody hb₁.since hinner
    dsimp only [Site.mentions, Site.assigns]
    rw [hb₂.scope_eq]
    exact ⟨(grants_append.1 hparts).1, hb₂.since⟩

theorem framed_of_respects
    (h : (Permit.mk (σ.mentions signatures) (σ.assigns signatures) [] σ.before.registers).Respects
      σ.before σ.after (σ.stretch.instr.scopeAfter σ.before.scope) σ.code) :
    σ.Framed signatures := by
  refine ⟨h.scope_eq, h.since, h.steady, fun hr => ?_⟩
  exact (h.sets hr).maySet.imp_right fun hr => .inl (hr.resolve_right (by simp))

/-- The stretches of a first statement keep to their frame. -/
theorem Begins.framed (h : P.Begins table σ) : σ.Framed table.signatures := by
  have hstart := fun ms ss lent m => since_start ms ss lent m
  cases h with
  | plain hpieces => exact framed_of_respects (respects_own_plain ‹_› hpieces)
  | ifTest htest | choiceTest htest =>
    exact framed_of_respects
      (respects_test rfl grants_own (hstart _ _ [] _) htest)
  | loopTest htest =>
    exact framed_of_respects
      (respects_loopTest rfl grants_own (hstart _ _ [] _) htest).1
  | @again cond body rest b b₁ b₂ b₃ offset pieces again test inner htest hinner hagain =>
    -- the test's register has been held since the test was first computed
    have hheld (t : Register) (c : Operand) (heq : test = .computed t c) :
        c = cond ∧ b₂.registers.holder t = some .temporary := by
      subst heq
      have hcond :=
        (respects_loopTest rfl grants_own (hstart _ _ [] _) htest).2 t c rfl
      have hb₂ := respects_own_draft hinner
      exact ⟨hcond.1, hb₂.since.holder (holder_of_draftLoopTest htest)⟩
    have hb₃ := respects_repeat rfl grants_own
      (fun t c heq => ⟨(hheld t c heq).1, .inr (.inr (LoopTest.mem_temporaries.2 ⟨c, heq⟩))⟩)
      (hstart _ _ test.temporaries _) hagain
    refine ⟨hb₃.scope_eq, hb₃.since.congr, hb₃.steady, fun hr => ?_⟩
    refine (hb₃.sets hr).maySet.imp_right fun hr => hr.imp_right fun hr => ?_
    obtain ⟨c, rfl⟩ := LoopTest.mem_temporaries.1 hr
    exact (hheld _ c rfl).2

theorem HasSite.since (h : P.HasSite table σ) (hP : P.Allowed p table.signatures) :
    p.Grants (σ.mentions table.signatures) (σ.assigns table.signatures) ∧
      p.Since σ.before.registers := by
  obtain ⟨Q, hQ, hσ⟩ := h
  exact hσ.since (hQ.allowed hP)

/-- Stretches keep to the permit of what is mentioned and set in the rest. -/
theorem HasSite.since_point (h : P.HasSite table σ) :
    (Permit.mk (P.mentions table.signatures) (P.assigns table.signatures) []
        P.bindings.registers).Grants (σ.mentions table.signatures) (σ.assigns table.signatures) ∧
      (Permit.mk (P.mentions table.signatures) (P.assigns table.signatures) []
        P.bindings.registers).Since σ.before.registers :=
  h.since ⟨grants_own, since_start _ _ _ _⟩

theorem HasSite.kept (h : P.HasSite table σ) : Kept P.bindings.registers σ.before.registers :=
  h.since_point.2.holder

/-- **Every stretch keeps to its frame.** -/
theorem HasSite.framed (h : P.HasSite table σ) : σ.Framed table.signatures := by
  obtain ⟨Q, -, hσ⟩ := h
  exact hσ.framed

end Point

end ImpMachine
