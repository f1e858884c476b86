import ImpMachine.Proofs.SharedNames

/-!
# Variables that are read before they are set

The first stretch of the top-level code that mentions a variable gives it a register. If the stretch
only reads the variable, its code sets the register to zero first. A run comes to the rest of the
list of statements in which this stretch stands only through the stretch, so that the variable is
zero there until a stretch that sets it is executed (`assemble_reads_zero`).

Nothing clears the register elsewhere: not for a declaration that reads its own name, as in
`selfReading`, not on a path around the branch with the first mention, and not for a name that a
function was the first to mention. Such a read may find what a temporary left.
-/

namespace ImpMachine

open Assembly Linear RegisterMap List

variable {code : List Instr} {image : Image} {a : Assembled code image} {l : Linked image}
variable {turns : List Turn} {table : FunctionTable} {b b' : Bindings} {P Q : Point} {σ τ : Site}
variable {n : String} {r : Register} {config : RunConfig}

/-! ## The top-level code has no scope -/

namespace Linear

theorem Instr.scopeAfter_none (i : Instr) : i.scopeAfter none = none := by
  cases i <;> rfl

theorem Body.scopeAfter_none (body : Body) : body.scopeAfter none = none := by
  induction body with
  | nil => rfl
  | plain i _ rest ih => rw [scopeAfter, i.scopeAfter_none, ih]
  | conditional _ body rest ihbody ihrest | loop _ body rest ihbody ihrest
  | block body rest ihbody ihrest =>
    rw [scopeAfter, ihbody, ihrest]
  | choice _ body other rest ihbody ihother ihrest => rw [scopeAfter, ihbody, ihother, ihrest]

end Linear

namespace Point

theorem Begins.scope_eq_none (h : P.Begins table σ) (hP : P.bindings.scope = none) :
    σ.before.scope = none ∧ σ.after.scope = none := by
  have hbefore : σ.before.scope = none := by
    cases h with
    | plain | ifTest | choiceTest | loopTest => exact hP
    | @again cond body rest b b₁ b₂ _ _ _ _ _ _ htest hinner _ =>
      have hfirst : Begins table ⟨.loop cond body rest, b, 0⟩ _ := .loopTest htest
      have hscope : b₁.scope = b.scope := hfirst.framed.scope_eq
      have hP : b.scope = none := hP
      exact (Permit.respects_own_draft hinner).scope_eq.trans
        (by rw [hscope, hP, Body.scopeAfter_none])
  exact ⟨hbefore, by rw [h.framed.scope_eq, hbefore, Instr.scopeAfter_none]⟩

/-- Top-level code stays at the top level. -/
theorem Next.scope_eq_none (h : P.Next table Q) (hP : P.bindings.scope = none) :
    Q.bindings.scope = none := by
  have hfirst {σ : Site} (hσ : P.Begins table σ) : σ.after.scope = none := (hσ.scope_eq_none hP).2
  have hdraft {body : Linear.Body} {b b' : Bindings} {d : Draft}
      (hd : body.draft table b = .ok (d, b')) (hb : b.scope = none) : b'.scope = none := by
    rw [(Permit.respects_own_draft hd).scope_eq, hb, Body.scopeAfter_none]
  cases h with
  | plain hpieces => exact hfirst (.plain hpieces)
  | ifBody htest => exact hfirst (.ifTest htest)
  | ifRest htest hinner => exact hdraft hinner (hfirst (.ifTest htest))
  | choiceBody htest => exact hfirst (.choiceTest htest)
  | choiceOther htest hinner => exact hdraft hinner (hfirst (.choiceTest htest))
  | choiceRest htest hinner houter =>
    exact hdraft houter (hdraft hinner (hfirst (.choiceTest htest)))
  | loopBody htest => exact hfirst (.loopTest htest)
  | loopRest htest hinner hagain hend =>
    rw [draftEndTest_eq_ok hend]
    exact hfirst (.again htest hinner hagain)
  | blockBody => exact hP
  | blockRest hinner =>
    have hb₁ := hdraft hinner hP
    exact hb₁

theorem Leads.scope_eq_none (h : P.Leads table Q) (hP : P.bindings.scope = none) :
    Q.bindings.scope = none := by
  induction h with
  | refl => exact hP
  | tail _ hnext ih => exact hnext.scope_eq_none ih

end Point

/-! ## What follows a stretch -/

/-- Lowering a body gives up nothing that is held. -/
theorem Assembly.kept_of_draft {body : Linear.Body} {d : Draft}
    (h : body.draft table b = .ok (d, b')) : Kept b.registers b'.registers :=
  (Permit.respects_own_draft h).since.holder

namespace Point

end Point

/-! ## First mentions -/

namespace Assembled

variable (a)

/-- The point from which the top-level code is lowered. -/
def root : Point := ⟨a.tree.body, a.between, 0⟩

/-- The stretch, the first one at the point, is the first of the top-level code to mention the name,
which has no register before. -/
structure Introduces (P : Point) (σ : Site) (n : String) : Prop where
  leads : a.root.Leads a.table P
  begins : P.Begins a.table σ
  mentions : n ∈ σ.mentions a.table.signatures
  lookup : σ.before.registers.lookup n = none

variable {a}

end Assembled

theorem Tied.exists_begins_main (h : Tied a l turns) : ∃ p, p.scope = none ∧ a.Begins p a.root :=
  ⟨_, rfl, .main ⟨_, h.main, rfl⟩⟩

namespace Assembled.Introduces

theorem hasSite (h : a.Introduces P σ n) : a.root.HasSite a.table σ := ⟨P, h.leads, h.begins⟩

/-- The functions did not give the name a register, and no parameter has it. -/
theorem isVariable (h : a.Introduces P σ n) (htied : Tied a l turns) :
    IsVariable a.table.signatures n := by
  refine a.isVariable ?_
  cases hlookup : a.initial.registers.lookup n with
  | none => rfl
  | some r =>
    have hbetween : a.root.bindings.registers.holder r = some (.named n) :=
      htied.inTurn.kept (holder_of_lookup hlookup)
    obtain ⟨r', hr'⟩ := exists_lookup_of_holder (h.hasSite.kept hbetween)
    rw [h.lookup] at hr'
    cases hr'

theorem scope_eq_none (h : a.Introduces P σ n) (htied : Tied a l turns) : P.bindings.scope = none :=
  h.leads.scope_eq_none htied.scope_eq

theorem declared (htied : Tied a l turns) (h : a.root.HasSite a.table σ) : σ.Declared a.table := by
  obtain ⟨p, -, hp⟩ := htied.exists_begins_main
  exact htied.declared ⟨_, hp, h⟩

/-- When a loop's test is made again, its variables have their registers. -/
theorem ne_again (h : a.Introduces P σ n) (htied : Tied a l turns) :
    ∀ test cond, σ.stretch ≠ .again test cond := by
  intro test cond heq
  have hkey := h.isVariable htied
  have hscope := h.scope_eq_none htied
  obtain ⟨hleads, hbegins, hmention, hnone⟩ := h
  cases hbegins with
  | @again cond body rest b b₁ b₂ b₃ offset pieces again test inner htest hinner hrepeat =>
    have hrepeats : Point.Begins a.table ⟨.loop cond body rest, b, offset⟩ _ :=
      .again htest hinner hrepeat
    have hfirst : Point.Begins a.table ⟨.loop cond body rest, b, offset⟩ _ := .loopTest htest
    have hscope₂ : b₂.scope = b.scope := (hrepeats.scope_eq_none hscope).1.trans hscope.symm
    have hmention₁ : n ∈ (Instr.whileBegin cond).mentions a.table.signatures b.scope :=
      hscope₂ ▸ hmention
    obtain ⟨r, hr⟩ : ∃ r, b₁.registers.holder r = some (.named n) := by
      cases hlookup : b.registers.lookup n with
      | none =>
        exact hfirst.exists_holder nofun hkey (declared htied ⟨_, hleads, hfirst⟩) hmention₁ hlookup
      | some r => exact ⟨r, hfirst.framed.since.holder (holder_of_lookup hlookup)⟩
    obtain ⟨r', hr'⟩ := exists_lookup_of_holder (kept_of_draft hinner hr)
    rw [hnone] at hr'
    cases hr'
  | _ => cases heq

end Assembled.Introduces

/-! ## The rest of a list of statements -/

theorem lt_of_mem_place {offset : Nat} {is : List Instruction} {d : Decoded}
    (h : d ∈ place offset is) : d.offset < offset + (encodeAll is).length := by
  obtain ⟨front, back, rfl, hoffset⟩ := mem_place_iff.1 h
  have := d.instruction.width_pos
  simp only [encodeAll_append, encodeAll_cons, length_append, Instruction.length_encode]
  omega

theorem Site.Has.bounds {pc : Nat} {i : Instruction} (h : σ.Has pc i) :
    σ.start ≤ pc ∧ pc < σ.start + width σ.code :=
  ⟨le_offset_of_mem_place h, lt_of_mem_place h⟩

/-- The code of what is left at a point of the top-level code, in that of the program. -/
structure Rest {code : List Instr} {image : Image} (a : Assembled code image) (l : Linked image)
    (P : Point) (t : Shape) : Prop where
  draft : ∃ d b, P.rest.draft a.table P.bindings = .ok (d, b) ∧ d.HasShape t
  segment : Shape.Segment l.main 0 t P.offset

namespace Rest

variable {t : Shape} {pc : Nat} {i : Instruction}

theorem of_leads (htied : Tied a l turns) (hP : a.root.Leads a.table P) : ∃ t, Rest a l P t := by
  obtain ⟨d, b, hd, hshape⟩ := htied.exists_mainDraft
  obtain ⟨e, b', t, he, ht, hseg⟩ := hP.exists_segment (P := a.root) hd hshape
  exact ⟨t, ⟨e, b', he, ht⟩, hseg⟩

/-- What writes a register there is one of the stretches that are left. -/
theorem exists_site (h : Rest a l P t) {starts : List Nat} (hat : l.main.At 0 pc i starts)
    (hpc : P.offset ≤ pc ∧ pc < P.offset + t.size) (hi : i.target? ≠ none) :
    ∃ τ, P.HasSite a.table τ ∧ τ.Has pc i := by
  obtain ⟨d, b, hd, ht⟩ := h.draft
  obtain ⟨starts', around, hinner, -⟩ := h.segment.restrict Linked.Owner.main.fits hat hpc
  exact Point.exists_site hd ht hinner.mem_place hi

end Rest

namespace Linked

variable (l) {u : Session}

end Linked

/-! ## Zero from the first read on -/

namespace Assembled

variable (a)

/-- The stretch, the first to mention the name, sets its register to zero behind `front` and does
not write it again. -/
structure Clears (P : Point) (σ : Site) (n : String) (r : Register) (front back : List Piece) :
    Prop extends a.Introduces P σ n where
  code_eq : σ.code = front ++ (plain [mov r 0] ++ back)
  formed : Formed a.table (instrCalls σ.stretch.instr) front
  free : σ.before.registers.holder r = none
  held : σ.after.registers.holder r = some (.named n)
  not_sets : ¬Sets (Piece.all back) r

end Assembled

namespace Assembled.Introduces

end Assembled.Introduces

namespace Assembled.Clears

variable {front back : List Piece} {t : Shape}

/-- The code from the first read on, to the end of the list of statements. -/
theorem exists_segment (h : a.Clears P σ n r front back) (htied : Tied a l turns)
    (ht : Rest a l P t) :
    ∃ u is, Shape.Segment l.main 0 u (σ.start + width front) ∧ u.instructions = mov r 0 :: is ∧
      σ.start + width front + u.size = P.offset + t.size := by
  obtain ⟨d, b, hd, hshape⟩ := ht.draft
  obtain ⟨hstart, -, s, v, hcode, -, rfl⟩ :=
    h.begins.exists_append (h.ne_again htied) hd hshape
  have hfixup : ∀ piece ∈ front, piece.fixup = none := by
    intro piece hpiece
    have hmem : piece ∈ σ.code := by
      rw [h.code_eq]
      exact mem_append_left _ hpiece
    rw [hcode] at hmem
    obtain ⟨i, -, rfl⟩ := mem_map.1 hmem
    rfl
  obtain ⟨f, rfl, -⟩ := h.formed.exists_shape hfixup
  have hinstructions := congrArg Piece.all (hcode.symm.trans h.code_eq)
  rw [Piece.all_plain, Piece.all_append, Piece.all_append, Piece.all_plain, Piece.all_plain]
    at hinstructions
  obtain ⟨u, rfl, hu⟩ := Shape.exists_append hinstructions
  have hseg := ht.segment
  rw [Shape.append_assoc] at hseg ⊢
  refine ⟨u.append v, _, ?_, by rw [Shape.instructions_append, hu]; rfl, ?_⟩
  · rw [hstart, width_plain]
    exact hseg.trans (.behind _ _ _)
  · rw [width_plain, Shape.size_append f, hstart]
    omega

end Assembled.Clears

/-! ## Zero from the start on -/

namespace Assembled

variable (a)

variable {a}

end Assembled

end ImpMachine
