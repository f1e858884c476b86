import ImpMachine.Proofs.Ownership
import Mathlib.Data.List.Pairwise

/-!
# The registers of each body

A whole body keeps to the permit that has the names it mentions and sets (`owns_draft`). Functions
are lowered one after the other, and each reserves what it took (`Lowered`).
-/

namespace ImpMachine

open Assembly Linear RegisterMap List

variable {b b' : Bindings} {signatures : Signatures} {i : Instr} {test : LoopTest} {body : Body}
variable {table : FunctionTable} {d : Draft}

namespace RegisterMap

/-- What a block did, once it is closed. -/
theorem Steady.popScope {m m' : RegisterMap} (h : Steady m.pushScope m') :
    Steady m m'.popScope := by
  refine ⟨fun r hr => ?_, ?_⟩
  · rw [RegisterMap.marked, touched_popScope]
    exact h.marked r hr
  · have hdepth : m'.frames.length = m.frames.length + 1 := h.depth
    cases hframes : m'.frames with
    | nil =>
      rw [hframes] at hdepth
      cases hdepth
    | cons frame outer =>
      rw [hframes] at hdepth
      rw [RegisterMap.popScope, hframes]
      simpa [frames_foldl_unbind] using hdepth

end RegisterMap

namespace Permit

variable {p : Permit} {P : Register → Prop} {s : Option Scope} {cond : Operand}

/-! ## Steps of drafting -/

/-- A request of drafting owns what it owns by itself. -/
theorem ownsIn_request {α : Type} {x : Allocation α} {φ : α → Prop} {Q : α → Register → Prop}
    (h : p.Owns P x φ Q) : p.OwnsIn s s P (request x) φ Q := by
  intro b a b' hscope hb hP ha
  unfold request at ha
  cases hx : x b.registers with
  | error e =>
    rw [hx] at ha
    cases ha
  | ok r =>
    rw [hx] at ha
    cases ha
    obtain ⟨-, hb', hsteady, hφ, hQ⟩ := h _ _ _ trivial hb hP hx
    exact ⟨hscope, hb', hsteady, hφ, hQ⟩

theorem ownsIn_environmentOf :
    p.OwnsIn s s P (environmentOf table) (fun env => env = ⟨table, s⟩) fun _ _ => False := by
  rintro b env b' rfl hb - ⟨⟩
  exact ⟨rfl, hb, .refl _, rfl, nofun⟩

theorem ownsIn_own (name : String) (value : Operand) :
    p.OwnsIn s ((Instr.declare name value).scopeAfter s) P (own name) (fun _ => True)
      fun _ _ => False := by
  rintro b a b' rfl hb - ⟨⟩
  exact ⟨rfl, hb, .refl _, trivial, nofun⟩

theorem ownsIn_draftAssign {name : String} {value : Operand} (hnames : keyIn s name ∈ p.names)
    (hassigned : keyIn s name ∈ p.assigned) (hvalue : p.Admits table.signatures s value) :
    p.OwnsIn s s P (draftAssign table name value) (fun _ => True)
      fun code => Sets (Piece.all code) := by
  refine ownsIn_environmentOf.bind ?_
  rintro env rfl
  exact (ownsIn_request (owns_bind hnames)).bind fun b _ =>
    ownsIn_request (owns_load value hvalue _ _ (.inr ⟨rfl, hassigned⟩))

theorem ownsIn_draftTest (hcond : p.Admits table.signatures s cond) :
    p.OwnsIn s s P (draftTest table cond) (fun _ => True) fun r => Sets (Piece.all r.1) := by
  refine ownsIn_environmentOf.bind ?_
  rintro env rfl
  exact (ownsIn_request (owns_fetchRegister hcond (owns_load cond hcond))).bind fun f hf =>
    (ownsIn_request (owns_release hf)).bind fun _ _ => Obeys.pure trivial fun _ hr => .inl (.inr hr)

theorem ownsIn_draftCall {callee : String} {args : List Operand}
    (hnames : parameterKeys table.signatures callee ⊆ p.names)
    (hassigned : parameterKeys table.signatures callee ⊆ p.assigned)
    (hargs : ∀ a ∈ args, p.Admits table.signatures s a) :
    p.OwnsIn s s P (do
      let env ← environmentOf table
      request (callCode env callee (loads env args)))
      (fun _ => True) fun code => Sets (Piece.all code) := by
  refine ownsIn_environmentOf.bind ?_
  rintro env rfl
  exact ownsIn_request (owns_callCode hnames hassigned (owns_loads args hargs))

/-! ## Instructions -/

/-- What an instruction is granted, its operands may use. -/
theorem admits_of_mem_operands (h : p.Grants (i.mentions signatures s) (i.assigns signatures s)) :
    ∀ e ∈ i.operands, p.Admits signatures (i.scopeAfter s) e := by
  intro e he
  have hgrants := (grants_append.1 h).1
  exact ⟨fun x hx => hgrants.1 (mem_flatMap.2 ⟨e, he, hx⟩),
    fun x hx => hgrants.2 (mem_flatMap.2 ⟨e, he, hx⟩)⟩

/-- **A plain instruction** sets only registers that are owned. -/
theorem ownsIn_draftPlain (hi : i.IsPlain)
    (h : p.Grants (i.mentions table.signatures s) (i.assigns table.signatures s)) :
    p.OwnsIn s (i.scopeAfter s) P (draftPlain table i) (fun _ => True)
      fun code => Sets (Piece.all code) := by
  have hoperands := admits_of_mem_operands h
  obtain ⟨hnames, hassigned⟩ := (grants_append.1 h).2
  cases i with
  | declare name value =>
    have hkey := mem_singleton_self (keyIn ((Instr.declare name value).scopeAfter s) name)
    exact ((ownsIn_own name value).bind fun _ _ => ownsIn_draftAssign (hnames hkey) (hassigned hkey)
      (hoperands value (mem_singleton_self value)))
  | assign name value =>
    have hkey := mem_singleton_self (keyIn s name)
    exact ownsIn_draftAssign (hnames hkey) (hassigned hkey)
      (hoperands value (mem_singleton_self value))
  | print value =>
    refine (ownsIn_draftTest (hoperands value (mem_singleton_self value))).bind fun r _ =>
      Obeys.pure trivial fun _ hr => .inr ?_
    simpa [Piece.all, Instruction.target?] using hr
  | call callee args => exact ownsIn_draftCall hnames hassigned hoperands
  | expr value =>
    have hvalue := hoperands value (mem_singleton_self value)
    cases value with
    | call callee args =>
      obtain ⟨-, hparams, hset⟩ := (admits_iff.1 hvalue).2 callee (mem_cons_self ..)
      exact ownsIn_draftCall hparams hset hvalue.args
    | _ =>
      refine ownsIn_environmentOf.bind ?_
      rintro env rfl
      exact (ownsIn_request (owns_viaTemporary (owns_load _ hvalue))).bind fun f hf =>
        (ownsIn_request (owns_release hf.2)).bind fun _ _ =>
          Obeys.pure trivial fun _ hr => .inl (.inr (.inl hr))
  | ret value =>
    have hkey := mem_singleton_self returnName
    refine ownsIn_environmentOf.bind ?_
    rintro env rfl
    refine (ownsIn_request (owns_bindGlobal (hnames hkey))).bind fun b _ =>
      (ownsIn_request (owns_load value (hoperands value (mem_singleton_self value)) _ _
        (.inr ⟨rfl, hassigned hkey⟩))).bind fun code _ => Obeys.pure trivial fun _ hr => .inr ?_
    simpa [Piece.all, Instruction.target?] using hr
  | ifBegin cond | whileBegin cond =>
    obtain ⟨hopens, -⟩ := hi
    cases hopens
  | _ => exact Obeys.pure trivial (by simp [Piece.all])

/-! ## Loops -/

/-- The first test of a loop, which may keep a temporary. -/
theorem ownsIn_draftLoopTest (hcond : p.Admits table.signatures s cond) :
    p.OwnsIn s s P (draftLoopTest table cond)
      (fun r => ∀ t c, r.2 = .computed t c → c = cond ∧ p.start.holder t = none)
      fun r reg => Sets (Piece.all r.1) reg ∨ ∃ c, r.2 = .computed reg c := by
  refine ownsIn_environmentOf.bind ?_
  rintro env rfl
  split
  · rename_i name
    have hkey := (admits_iff.1 hcond).1 name (mem_singleton_self name)
    refine (ownsIn_request (owns_readVariable hkey)).bind fun r _ => Obeys.pure nofun fun _ hr => ?_
    exact .inr (hr.resolve_right nofun)
  · refine (ownsIn_request (owns_viaTemporary (owns_load cond hcond))).bind fun f hf =>
      Obeys.pure ?_ ?_
    · rintro t c ⟨⟩
      exact ⟨rfl, hf.1⟩
    · rintro r (hr | ⟨c, ⟨⟩⟩)
      · exact .inr (.inl hr)
      · exact .inr (.inr rfl)

theorem ownsIn_draftRepeat (htest : ∀ t c, test = .computed t c → c = cond ∧ P t)
    (hcond : p.Admits table.signatures s cond) :
    p.OwnsIn s s P (draftRepeat table test) (fun _ => True) fun code => Sets (Piece.all code) := by
  match test, htest with
  | .variable r, _ => exact Obeys.pure trivial (by simp [Piece.all])
  | .computed t c, htest =>
    obtain ⟨rfl, ht⟩ := htest t c rfl
    refine ownsIn_environmentOf.bind ?_
    rintro env rfl
    exact ownsIn_request (owns_load _ hcond _ _ (.inl ht))

theorem ownsIn_draftEndTest (htest : ∀ t c, test = .computed t c → p.start.holder t = none) :
    p.OwnsIn s s P (draftEndTest test) (fun _ => True) fun _ _ => False := by
  match test, htest with
  | .variable r, _ => exact Obeys.pure trivial nofun
  | .computed t c, htest => exact ownsIn_request (owns_release (by simpa using htest t c rfl))

/-! ## Blocks -/

/-- A block closes what it opened. -/
theorem ownsIn_block {α β : Type} {s' s'' : Option Scope} {x : Drafting α} {f : α → Drafting β}
    {φ : α → Prop} {ψ : β → Prop} {Q : α → Register → Prop} {R : β → Register → Prop}
    (hx : p.OwnsIn s s' P x φ Q)
    (hf : ∀ a, φ a → p.OwnsIn s' s'' (fun r => P r ∨ Q a r) (f a) ψ R) :
    p.OwnsIn s s'' P
      (do change pushScope; let a ← x; change popScope; f a) ψ R := by
  intro b c b' hscope hb hP h
  obtain ⟨_, _, ⟨⟩, h⟩ := run_bind_eq_ok.1 h
  obtain ⟨a, b₁, ha, h⟩ := run_bind_eq_ok.1 h
  obtain ⟨_, _, ⟨⟩, h⟩ := run_bind_eq_ok.1 h
  obtain ⟨hscope₁, hb₁, hsteady₁, hφ, hQ⟩ := hx { b with registers := b.registers.pushScope } a b₁
    hscope hb.pushScope hP ha
  have hpop : Steady b.registers b₁.registers.popScope := hsteady₁.popScope
  have hdepth : p.start.frames.length < b₁.registers.frames.length := by
    have hlength : b₁.registers.frames.length = b.registers.frames.length + 1 := hsteady₁.depth
    have hle := hb.frames.length_le
    omega
  -- closing the block frees registers but clears no mark
  have hmarks (r : Register) (hr : p.Owned b₁.registers r) : p.Owned b₁.registers.popScope r := by
    refine hr.imp_left fun hr => ⟨hr.1, ?_⟩
    rw [marked, touched_popScope]
    exact hr.2
  obtain ⟨hscope', hb', hsteady', hψ, hR⟩ :=
    hf a hφ { b₁ with registers := b₁.registers.popScope } c b' hscope₁
    (hb₁.popScope hdepth)
    (fun r hr => hr.elim (fun hr => (hP r hr).mono hpop) fun hr => hmarks r (hQ r hr)) h
  exact ⟨hscope', hb', hpop.trans hsteady', hψ, hR⟩

/-! ## Bodies -/

/-- **A body keeps to the permit that has what it mentions and sets.** -/
theorem owns_draft
    (h : p.Grants (body.mentions table.signatures s) (body.assigns table.signatures s)) :
    p.OwnsIn s (body.scopeAfter s) P (body.draft table) (fun _ => True)
      fun d => Sets (Piece.all d.leaves) := by
  induction body generalizing s P with
  | nil => exact Obeys.pure trivial (by simp [Draft.leaves, Piece.all])
  | plain i hi rest ih =>
    obtain ⟨hplain, hrest⟩ := grants_append.1 h
    refine (ownsIn_draftPlain hi hplain).bind fun code _ => (ih hrest).bind fun d _ =>
      Obeys.pure trivial fun r hr => ?_
    rw [Draft.leaves, Piece.all_append, sets_append] at hr
    exact hr.elim (fun hr => .inl (.inr hr)) .inr
  | conditional cond body rest ihbody ihrest =>
    obtain ⟨hcond, h⟩ := grants_append.1 h
    obtain ⟨hbody, hrest⟩ := grants_append.1 h
    have hcond := admits_of_mem_operands hcond cond (mem_singleton_self cond)
    refine (ownsIn_draftTest hcond).bind fun test _ => (ihbody hbody).bind fun d _ =>
      (ihrest hrest).bind fun e _ => Obeys.pure trivial fun r hr => ?_
    simp only [Draft.leaves, Piece.all_append, sets_append] at hr
    rcases hr with hr | hr | hr
    · exact .inl (.inl (.inr hr))
    · exact .inl (.inr hr)
    · exact .inr hr
  | choice cond body other rest ihbody ihother ihrest =>
    obtain ⟨hcond, h⟩ := grants_append.1 h
    obtain ⟨hbody, h⟩ := grants_append.1 h
    obtain ⟨hother, hrest⟩ := grants_append.1 h
    have hcond := admits_of_mem_operands hcond cond (mem_singleton_self cond)
    refine (ownsIn_draftTest hcond).bind fun test _ => (ihbody hbody).bind fun d _ =>
      (ihother hother).bind fun e _ => (ihrest hrest).bind fun f _ =>
        Obeys.pure trivial fun r hr => ?_
    simp only [Draft.leaves, Piece.all_append, sets_append] at hr
    rcases hr with hr | hr | hr | hr
    · exact .inl (.inl (.inl (.inr hr)))
    · exact .inl (.inl (.inr hr))
    · exact .inl (.inr hr)
    · exact .inr hr
  | loop cond body rest ihbody ihrest =>
    obtain ⟨hcond, h⟩ := grants_append.1 h
    obtain ⟨hbody, h⟩ := grants_append.1 h
    obtain ⟨hagain, hrest⟩ := grants_append.1 h
    have hcond := admits_of_mem_operands hcond cond (mem_singleton_self cond)
    have hagain := admits_of_mem_operands hagain cond (mem_singleton_self cond)
    -- the condition's temporary is owned all through the body
    refine (ownsIn_draftLoopTest hcond).bind fun test htest => (ihbody hbody).bind fun d _ =>
      (ownsIn_draftRepeat (fun t c heq => ⟨(htest t c heq).1, .inl (.inr (.inr ⟨c, heq⟩))⟩)
        hagain).bind fun again _ =>
          (ownsIn_draftEndTest fun t c heq => (htest t c heq).2).bind fun _ _ =>
            (ihrest hrest).bind fun e _ => Obeys.pure trivial fun r hr => ?_
    simp only [Draft.leaves, Draft.leaves_append, Piece.all_append, sets_append, append_nil]
      at hr
    rcases hr with hr | (hr | hr) | hr
    · exact .inl (.inl (.inl (.inl (.inr (.inl hr)))))
    · exact .inl (.inl (.inl (.inr hr)))
    · exact .inl (.inl (.inr hr))
    · exact .inr hr
  | block body rest ihbody ihrest =>
    obtain ⟨hbody, hrest⟩ := grants_append.1 h
    refine ownsIn_block (ihbody hbody) fun d _ => (ihrest hrest).bind fun e _ =>
      Obeys.pure trivial fun r hr => ?_
    rw [Draft.leaves_append, Piece.all_append, sets_append] at hr
    exact hr.elim (fun hr => .inl (.inr hr)) .inr

/-- Every map is one since itself. -/
theorem since_start (mentioned set : List String) (lent : List Register) (m : RegisterMap) :
    (Permit.mk mentioned set lent m).Since m := by
  refine ⟨id, fun hnone hr => ?_, fun hnone hr => ?_, ⟨[], m.frames, rfl, rfl, by simp,
    fun frame hframe x hx => .inr ⟨frame, hframe, hx⟩⟩, id⟩
  · rw [show m.holder _ = none from hnone] at hr
    cases hr
  · rw [show m.holder _ = none from hnone] at hr
    cases hr

end Permit

/-! ## Functions -/

namespace RegisterMap

/-- Nothing that is held is given up. -/
def Kept (m m' : RegisterMap) : Prop :=
  ∀ {r h}, m.holder r = some h → m'.holder r = some h

/-- Registers used by a function stay taken behind it. -/
theorem holder_reserveTouched (m : RegisterMap) (r : Register) :
    m.reserveTouched.holder r =
      if m.marked r = true ∧ m.holder r = none then some .reserved else m.holder r := by
  simp only [holder, marked, reserveTouched, resetTouched, Vector.getElem_ofFn, Bool.and_eq_true,
    Option.isNone_iff_eq_none, Fin.getElem_fin]
  congr

end RegisterMap

/-- What lowering a function does with the registers: it gives up nothing that is held, only names
that it mentions take registers, and its code sets registers that it took and keeps, or those of
names that it sets. -/
structure Lowered (mentioned assigned : List String) (code : List Instruction)
    (before after : RegisterMap) : Prop where
  kept : Kept before after
  named : ∀ {r x}, before.holder r = none → after.holder r = some (.named x) → x ∈ mentioned
  sets : ∀ {r}, Sets code r → before.holder r = none ∧ after.holder r ≠ none ∨
    ∃ x ∈ assigned, before.holder r = some (.named x)

/-- The draft of a function is that of its body, with the return at the end. -/
theorem Routine.draft_eq_ok {r : Routine} (h : r.draft table b = .ok (d, b')) :
    ∃ d' b₁, r.body.draft table ⟨b.registers.resetTouched, some ⟨r.name, r.params⟩⟩ =
        .ok (d', b₁) ∧ b' = ⟨b₁.registers.reserveTouched, none⟩ ∧
      (d = d' ∨ d = d'.append (.code (plain [.ret]) .nil)) := by
  obtain ⟨_, _, ⟨⟩, h⟩ := run_bind_eq_ok.1 h
  obtain ⟨_, _, ⟨⟩, h⟩ := run_bind_eq_ok.1 h
  obtain ⟨d', b₁, hd', h⟩ := run_bind_eq_ok.1 h
  obtain ⟨_, _, ⟨⟩, h⟩ := run_bind_eq_ok.1 h
  obtain ⟨_, _, ⟨⟩, h⟩ := run_bind_eq_ok.1 h
  cases h
  refine ⟨d', b₁, hd', rfl, ?_⟩
  split
  · exact .inl rfl
  · exact .inr rfl

/-- **A function keeps what it took.** -/
theorem lowered_routine {r : Routine}
    (hframes : b.registers.frames = []) (h : r.draft table b = .ok (d, b')) :
    b'.registers.frames = [] ∧ b'.scope = none ∧
      Lowered (r.body.mentions table.signatures (some ⟨r.name, r.params⟩))
        (r.body.assigns table.signatures (some ⟨r.name, r.params⟩)) (Piece.all d.leaves)
        b.registers b'.registers := by
  obtain ⟨d', b₁, hd', rfl, hd⟩ := Routine.draft_eq_ok h
  have hstart : (Permit.mk (r.body.mentions table.signatures (some ⟨r.name, r.params⟩))
      (r.body.assigns table.signatures (some ⟨r.name, r.params⟩)) [] b.registers.resetTouched).Since
        b.registers.resetTouched := Permit.since_start _ _ _ _
  obtain ⟨-, hsince, hsteady, -, hsets⟩ := Permit.owns_draft ⟨fun _ => id, fun _ => id⟩
    (P := fun _ => False) _ d' b₁ rfl hstart nofun hd'
  refine ⟨?_, rfl, fun {r h} hr => ?_, fun {r x} hnone hr => ?_, fun {r} hr => ?_⟩
  · have hdepth := hsteady.depth
    rw [show b.registers.resetTouched.frames = [] from hframes] at hdepth
    exact length_eq_zero_iff.1 hdepth
  · have hheld := hsince.holder hr
    rw [holder_reserveTouched, if_neg, hheld]
    rw [hheld]
    exact fun hnone => nomatch hnone.2
  · rw [holder_reserveTouched] at hr
    split at hr
    · cases hr
    · exact hsince.named hnone hr
  · have hcode : Sets (Piece.all d'.leaves) r := by
      rcases hd with rfl | rfl
      · exact hr
      · simpa [Draft.leaves_append, Draft.leaves, Instruction.target?] using hr
    refine (hsets r hcode).imp (fun howned => ⟨howned.1, ?_⟩) fun hr => hr.resolve_right (by simp)
    rw [holder_reserveTouched]
    split
    · simp
    · rename_i hnot
      exact fun hnone => hnot ⟨howned.2, hnone⟩

/-- The top-level code sets registers that were free, and those of names that it sets. -/
theorem sets_mainDraft (hscope : b.scope = none)
    (h : mainDraft table body b = .ok (d, b')) {r : Register} (hr : Sets (Piece.all d.leaves) r) :
    b.registers.holder r = none ∨
      ∃ x ∈ body.assigns table.signatures none, b.registers.holder r = some (.named x) := by
  obtain ⟨d', hd', rfl⟩ := mainDraft_eq_ok h
  have hstart : (Permit.mk (body.mentions table.signatures none)
      (body.assigns table.signatures none) [] b.registers).Since b.registers :=
    Permit.since_start _ _ _ _
  obtain ⟨-, -, -, -, hsets⟩ := Permit.owns_draft ⟨fun _ => id, fun _ => id⟩
    (P := fun _ => False) b d' b' hscope hstart nofun hd'
  have hcode : Sets (Piece.all d'.leaves) r := by
    simpa [Draft.leaves_append, Draft.leaves, Instruction.target?] using hr
  exact (hsets r hcode).imp And.left fun hr => hr.resolve_right (by simp)

/-! ## Functions in order -/

/-- A function with its code, and the registers before and after it was lowered. -/
structure Turn where
  routine : Routine
  draft : Draft
  before : RegisterMap
  after : RegisterMap

namespace Turn

/-- What the function calls its own. -/
def scope (t : Turn) : Option Scope := some ⟨t.routine.name, t.routine.params⟩

/-- The keys that the function mentions. -/
def mentions (signatures : Signatures) (t : Turn) : List String :=
  t.routine.body.mentions signatures t.scope

/-- The keys that the function sets. -/
def assigns (signatures : Signatures) (t : Turn) : List String :=
  t.routine.body.assigns signatures t.scope

/-- The instructions of the function. -/
def code (t : Turn) : List Instruction := Piece.all t.draft.leaves

/-- The register was free and is held afterwards. -/
def Takes (t : Turn) (r : Register) : Prop :=
  t.before.holder r = none ∧ t.after.holder r ≠ none

end Turn

/-- The turns follow one another: nothing that one leaves is given up before the next. -/
structure InTurn (signatures : Signatures) (turns : List Turn) (before after : RegisterMap) :
    Prop where
  lowered : ∀ t ∈ turns, Lowered (t.mentions signatures) (t.assigns signatures) t.code
    t.before t.after
  ordered : turns.Pairwise fun t u => Kept t.after u.before
  first : ∀ t ∈ turns, Kept before t.before
  last : ∀ t ∈ turns, Kept t.after after
  kept : Kept before after

/-- The turn is that of the function at the index. -/
def Turn.IsAt (table : FunctionTable) (rs : List Routine) (b : Bindings) (k : Nat) (t : Turn) :
    Prop :=
  ∃ ds b₁ b₂, draftAll table (rs.take k) b = .ok (ds, b₁) ∧
    t.routine.draft table b₁ = .ok (t.draft, b₂) ∧ b₁.registers = t.before ∧
    b₂.registers = t.after ∧ b₁.registers.frames = [] ∧ b₁.scope = none

/-- **Functions are lowered in turn**, each from what the ones before it left. -/
theorem exists_turns {rs : List Routine} {ds : List Draft} (hframes : b.registers.frames = [])
    (hscope : b.scope = none) (h : draftAll table rs b = .ok (ds, b')) :
    b'.registers.frames = [] ∧ b'.scope = none ∧ ∃ turns : List Turn, turns.map Turn.routine = rs ∧
      turns.map Turn.draft = ds ∧ InTurn table.signatures turns b.registers b'.registers ∧
      ∀ (k : Nat) (t : Turn), turns[k]? = some t → t.IsAt table rs b k := by
  induction rs generalizing b ds with
  | nil =>
    cases h
    exact ⟨hframes, hscope, [], rfl, rfl, ⟨by simp, .nil, by simp, by simp, id⟩, by simp⟩
  | cons r rs ih =>
    obtain ⟨d, b₁, hd, h⟩ := run_bind_eq_ok.1 h
    obtain ⟨ds, b₂, hds, h⟩ := run_bind_eq_ok.1 h
    cases h
    obtain ⟨hframes₁, hscope₁, hlowered⟩ := lowered_routine hframes hd
    obtain ⟨hframes', hscope', turns, hroutines, hdrafts, hturns, hindex⟩ := ih hframes₁ hscope₁ hds
    refine ⟨hframes', hscope', ⟨r, d, b.registers, b₁.registers⟩ :: turns, ?_, ?_, ⟨?_, ?_, ?_, ?_,
      ?_⟩, fun k t ht => ?_⟩
    · rw [map_cons, hroutines]
    · rw [map_cons, hdrafts]
    · exact forall_mem_cons.2 ⟨hlowered, hturns.lowered⟩
    · exact pairwise_cons.2 ⟨hturns.first, hturns.ordered⟩
    · exact forall_mem_cons.2 ⟨id, fun t ht _ _ hr => hturns.first t ht (hlowered.kept hr)⟩
    · exact forall_mem_cons.2 ⟨hturns.kept, hturns.last⟩
    · exact fun hr => hturns.kept (hlowered.kept hr)
    · cases k with
      | zero =>
        cases ht
        exact ⟨[], b, b₁, rfl, hd, rfl, rfl, hframes, hscope⟩
      | succ k =>
        obtain ⟨es, b₃, b₄, hes, hrest⟩ := hindex k t ht
        exact ⟨d :: es, b₃, b₄, run_bind_eq_ok.2 ⟨d, b₁, hd, run_bind_eq_ok.2 ⟨es, b₃, hes, rfl⟩⟩,
          hrest⟩

namespace InTurn

variable {turns : List Turn} {before after : RegisterMap} {t u : Turn} {r : Register} {x : String}

/-- A register that a function sets is kept, for a name that it mentions if for any. -/
theorem mentions_of_sets (h : InTurn signatures turns before after) (ht : t ∈ turns)
    (hr : Sets t.code r) :
    after.holder r ≠ none ∧ ∀ x, after.holder r = some (.named x) → x ∈ t.mentions signatures := by
  have hlowered := h.lowered t ht
  rcases hlowered.sets hr with ⟨hfree, htaken⟩ | ⟨y, hy, hheld⟩
  · -- taken in this turn: what the turn left there is still there in the end
    obtain ⟨holder, hholder⟩ := Option.ne_none_iff_exists'.1 htaken
    have hafter := h.last t ht hholder
    refine ⟨by simp [hafter], fun x hx => hlowered.named hfree ?_⟩
    rw [hholder, ← hafter, hx]
  · have hafter := h.last t ht (hlowered.kept hheld)
    refine ⟨by simp [hafter], fun x hx => ?_⟩
    rw [hafter] at hx
    cases hx
    exact Body.assigns_subset_mentions _ _ _ hy

/-- A register held before all turns is set only by functions that set its name. -/
theorem assigns_of_sets (h : InTurn signatures turns before after) (ht : t ∈ turns)
    (hr : Sets t.code r) (hheld : before.holder r = some (.named x)) :
    x ∈ t.assigns signatures := by
  have hfirst := h.first t ht hheld
  rcases (h.lowered t ht).sets hr with ⟨hfree, -⟩ | ⟨y, hy, hname⟩
  · rw [hfirst] at hfree
    cases hfree
  · rw [hfirst] at hname
    cases hname
    exact hy

/-- What one function took is held when a later one begins. -/
theorem not_takes_both (h : InTurn signatures turns before after) (ht : t ∈ turns) (hu : u ∈ turns)
    (hne : t ≠ u) : ¬(t.Takes r ∧ u.Takes r) := by
  have hsymm : Std.Symm fun t u : Turn => ¬(t.Takes r ∧ u.Takes r) :=
    ⟨fun _ _ hnot hboth => hnot hboth.symm⟩
  have hpairs : turns.Pairwise fun t u => ¬(t.Takes r ∧ u.Takes r) := by
    refine h.ordered.imp fun {t u} hkept hboth => ?_
    obtain ⟨⟨-, htaken⟩, hfree, -⟩ := hboth
    obtain ⟨holder, hholder⟩ := Option.ne_none_iff_exists'.1 htaken
    rw [hkept hholder] at hfree
    cases hfree
  exact hpairs.forall ht hu hne

/-- **Two functions share a register only for a name that both mention and one sets.** -/
theorem exists_shared (h : InTurn signatures turns before after) (ht : t ∈ turns) (hu : u ∈ turns)
    (hne : t ≠ u) (htr : Sets t.code r) (hur : Sets u.code r) :
    ∃ x, after.holder r = some (.named x) ∧
      (x ∈ t.assigns signatures ∧ x ∈ u.mentions signatures ∨
        x ∈ t.mentions signatures ∧ x ∈ u.assigns signatures) := by
  have htm := (h.mentions_of_sets ht htr).2
  have hum := (h.mentions_of_sets hu hur).2
  rcases (h.lowered t ht).sets htr with htaken | ⟨x, hx, hheld⟩
  · rcases (h.lowered u hu).sets hur with hutaken | ⟨x, hx, hheld⟩
    · exact (h.not_takes_both ht hu hne ⟨htaken, hutaken⟩).elim
    · have hafter := h.last u hu ((h.lowered u hu).kept hheld)
      exact ⟨x, hafter, .inr ⟨htm x hafter, hx⟩⟩
  · have hafter := h.last t ht ((h.lowered t ht).kept hheld)
    exact ⟨x, hafter, .inl ⟨hx, hum x hafter⟩⟩

end InTurn

end ImpMachine
