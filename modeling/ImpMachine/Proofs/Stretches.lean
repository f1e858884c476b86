import ImpMachine.Proofs.BodyRegisters
import ImpMachine.Proofs.Segments
import Mathlib.Logic.Relation

/-!
# The code of a body, stretch by stretch

Lowering a body comes to one point after the other: what is left of a list of statements, the
registers given out so far, and the offset of the code (`Point.Next`). At a point the code of a
stretch is made: of a plain instruction, or of the test of a construct (`Point.Begins`). So every
instruction of a body that writes a register is one of a stretch (`Point.exists_site`), and what is
left of a list is a run of statements in the shape of the body (`Point.Leads.exists_segment`).
-/

namespace ImpMachine

open Assembly Linear List

variable {d : Draft} {s : Shape} {pc : Nat} {i : Instruction}

/-! ## Drafts and their parts -/

namespace Assembly

/-- The shape of a draft behind a draft falls into two. -/
theorem Draft.HasShape.of_append {e : Draft} (h : (d.append e).HasShape s) :
    ∃ t u, d.HasShape t ∧ e.HasShape u ∧ s = t.append u := by
  induction d generalizing s with
  | nil => exact ⟨.nil, s, .nil, h, rfl⟩
  | code pieces rest ih =>
    cases h with
    | code hfits h =>
      obtain ⟨t, u, ht, hu, rfl⟩ := ih h
      exact ⟨_, u, .code hfits ht, hu, (Shape.append_assoc ..).symm⟩
  | conditional test body rest _ ih =>
    cases h with
    | conditional hbody h =>
      obtain ⟨t, u, ht, hu, rfl⟩ := ih h
      exact ⟨_, u, .conditional hbody ht, hu, rfl⟩
  | choice test body other rest _ _ ih =>
    cases h with
    | choice hbody hother h =>
      obtain ⟨t, u, ht, hu, rfl⟩ := ih h
      exact ⟨_, u, .choice hbody hother ht, hu, rfl⟩
  | loop test body rest _ ih =>
    cases h with
    | loop hbody h =>
      obtain ⟨t, u, ht, hu, rfl⟩ := ih h
      exact ⟨_, u, .loop hbody ht, hu, rfl⟩

/-- The number of bytes of pieces. -/
def width (pieces : List Piece) : Nat := (pieceBytes pieces).length

@[simp] theorem width_plain (s : Shape) : width (plain s.instructions) = s.size := by
  simp [width]

theorem Draft.HasShape.width_eq {pieces : List Piece}
    (h : (Draft.code pieces .nil).HasShape s) : width pieces = s.size := h.size_eq

end Assembly

/-! ## Points -/

/-- A point of lowering: what is left of a list, what decides its registers, and where its code
stands. -/
structure Point where
  rest : Linear.Body
  bindings : Bindings
  offset : Nat

/-- Code that is made at once: of a plain instruction, of a test, or of a loop's test once more. -/
inductive Stretch where
  | plain (i : Instr)
  | test (cond : Operand)
  | loopTest (cond : Operand)
  | again (test : LoopTest) (cond : Operand)

/-- Makes the code of a stretch. -/
def Stretch.draft (table : FunctionTable) : Stretch → Drafting (List Piece)
  | .plain i => draftPlain table i
  | .test cond => do return (← draftTest table cond).1
  | .loopTest cond => do return (← draftLoopTest table cond).1
  | .again loop _ => draftRepeat table loop

/-- A stretch where it is lowered. -/
structure Site where
  stretch : Stretch
  before : Bindings
  after : Bindings
  code : List Piece
  start : Nat

variable {σ : Site}

/-- The stretch has the instruction at the offset. -/
def Site.Has (σ : Site) (pc : Nat) (i : Instruction) : Prop :=
  ⟨pc, i⟩ ∈ place σ.start (Piece.all σ.code)

/-- An instruction of a stretch sets what it targets. -/
theorem Site.Has.sets {r : Register} (h : σ.Has pc i)
    (htarget : i.target? = some r.byte) : Sets (Piece.all σ.code) r := by
  have hmem := mem_map_of_mem (f := (·.instruction)) h
  rw [map_instruction_place] at hmem
  exact ⟨i, hmem, htarget⟩

namespace Point

/-- From one point to what follows the first statement, or to a list inside it. -/
inductive Next (table : FunctionTable) : Point → Point → Prop where
  | plain {i : Instr} {hi : i.IsPlain} {rest : Linear.Body} {b b₁ : Bindings} {offset : Nat}
      {pieces : List Piece} : draftPlain table i b = .ok (pieces, b₁) →
      Next table ⟨.plain i hi rest, b, offset⟩ ⟨rest, b₁, offset + width pieces⟩
  | ifBody {cond : Operand} {body rest : Linear.Body} {b b₁ : Bindings} {offset : Nat}
      {pieces : List Piece} {test : Register} : draftTest table cond b = .ok ((pieces, test), b₁) →
      Next table ⟨.conditional cond body rest, b, offset⟩ ⟨body, b₁, offset + width pieces + 3⟩
  | ifRest {cond : Operand} {body rest : Linear.Body} {b b₁ b₂ : Bindings} {offset : Nat}
      {pieces : List Piece} {test : Register} {inner : Draft} :
      draftTest table cond b = .ok ((pieces, test), b₁) → body.draft table b₁ = .ok (inner, b₂) →
      Next table ⟨.conditional cond body rest, b, offset⟩
        ⟨rest, b₂, offset + width pieces + 3 + inner.size + 1⟩
  | choiceBody {cond : Operand} {body other rest : Linear.Body} {b b₁ : Bindings} {offset : Nat}
      {pieces : List Piece} {test : Register} : draftTest table cond b = .ok ((pieces, test), b₁) →
      Next table ⟨.choice cond body other rest, b, offset⟩ ⟨body, b₁, offset + width pieces + 3⟩
  | choiceOther {cond : Operand} {body other rest : Linear.Body} {b b₁ b₂ : Bindings} {offset : Nat}
      {pieces : List Piece} {test : Register} {inner : Draft} :
      draftTest table cond b = .ok ((pieces, test), b₁) → body.draft table b₁ = .ok (inner, b₂) →
      Next table ⟨.choice cond body other rest, b, offset⟩
        ⟨other, b₂, offset + width pieces + 3 + inner.size + 2⟩
  | choiceRest {cond : Operand} {body other rest : Linear.Body} {b b₁ b₂ b₃ : Bindings}
      {offset : Nat} {pieces : List Piece} {test : Register} {inner outer : Draft} :
      draftTest table cond b = .ok ((pieces, test), b₁) → body.draft table b₁ = .ok (inner, b₂) →
      other.draft table b₂ = .ok (outer, b₃) →
      Next table ⟨.choice cond body other rest, b, offset⟩
        ⟨rest, b₃, offset + width pieces + 3 + inner.size + 2 + outer.size + 1⟩
  | loopBody {cond : Operand} {body rest : Linear.Body} {b b₁ : Bindings} {offset : Nat}
      {pieces : List Piece} {test : LoopTest} :
      draftLoopTest table cond b = .ok ((pieces, test), b₁) →
      Next table ⟨.loop cond body rest, b, offset⟩ ⟨body, b₁, offset + width pieces + 3⟩
  | loopRest {cond : Operand} {body rest : Linear.Body} {b b₁ b₂ b₃ b₄ : Bindings} {offset : Nat}
      {pieces again : List Piece} {test : LoopTest} {inner : Draft} :
      draftLoopTest table cond b = .ok ((pieces, test), b₁) →
      body.draft table b₁ = .ok (inner, b₂) → draftRepeat table test b₂ = .ok (again, b₃) →
      draftEndTest test b₃ = .ok ((), b₄) →
      Next table ⟨.loop cond body rest, b, offset⟩
        ⟨rest, b₄, offset + width pieces + 3 + (inner.size + width again) + 1⟩
  | blockBody {body rest : Linear.Body} {b : Bindings} {offset : Nat} :
      Next table ⟨.block body rest, b, offset⟩
        ⟨body, { b with registers := b.registers.pushScope }, offset⟩
  | blockRest {body rest : Linear.Body} {b b₁ : Bindings} {offset : Nat} {inner : Draft} :
      body.draft table { b with registers := b.registers.pushScope } = .ok (inner, b₁) →
      Next table ⟨.block body rest, b, offset⟩
        ⟨rest, { b₁ with registers := b₁.registers.popScope }, offset + inner.size⟩

/-- From one point to a later one. -/
def Leads (table : FunctionTable) : Point → Point → Prop := Relation.ReflTransGen (Next table)

/-- The stretches of the first statement at a point. -/
inductive Begins (table : FunctionTable) : Point → Site → Prop where
  | plain {i : Instr} {hi : i.IsPlain} {rest : Linear.Body} {b b₁ : Bindings} {offset : Nat}
      {pieces : List Piece} : draftPlain table i b = .ok (pieces, b₁) →
      Begins table ⟨.plain i hi rest, b, offset⟩ ⟨.plain i, b, b₁, pieces, offset⟩
  | ifTest {cond : Operand} {body rest : Linear.Body} {b b₁ : Bindings} {offset : Nat}
      {pieces : List Piece} {test : Register} : draftTest table cond b = .ok ((pieces, test), b₁) →
      Begins table ⟨.conditional cond body rest, b, offset⟩ ⟨.test cond, b, b₁, pieces, offset⟩
  | choiceTest {cond : Operand} {body other rest : Linear.Body} {b b₁ : Bindings} {offset : Nat}
      {pieces : List Piece} {test : Register} : draftTest table cond b = .ok ((pieces, test), b₁) →
      Begins table ⟨.choice cond body other rest, b, offset⟩ ⟨.test cond, b, b₁, pieces, offset⟩
  | loopTest {cond : Operand} {body rest : Linear.Body} {b b₁ : Bindings} {offset : Nat}
      {pieces : List Piece} {test : LoopTest} :
      draftLoopTest table cond b = .ok ((pieces, test), b₁) →
      Begins table ⟨.loop cond body rest, b, offset⟩ ⟨.loopTest cond, b, b₁, pieces, offset⟩
  | again {cond : Operand} {body rest : Linear.Body} {b b₁ b₂ b₃ : Bindings} {offset : Nat}
      {pieces again : List Piece} {test : LoopTest} {inner : Draft} :
      draftLoopTest table cond b = .ok ((pieces, test), b₁) →
      body.draft table b₁ = .ok (inner, b₂) → draftRepeat table test b₂ = .ok (again, b₃) →
      Begins table ⟨.loop cond body rest, b, offset⟩
        ⟨.again test cond, b₂, b₃, again, offset + width pieces + 3 + inner.size⟩

/-- The stretches of all that is left at a point. -/
def HasSite (table : FunctionTable) (P : Point) (σ : Site) : Prop :=
  ∃ Q, P.Leads table Q ∧ Q.Begins table σ

variable {table : FunctionTable} {P Q : Point} {b : Bindings}

/-- The code of a stretch is what drafting makes of it. -/
theorem Begins.draft_eq (h : Q.Begins table σ) :
    σ.stretch.draft table σ.before = .ok (σ.code, σ.after) := by
  cases h with
  | plain h => exact h
  | ifTest h | choiceTest h | loopTest h => exact run_bind_eq_ok.2 ⟨_, _, h, rfl⟩
  | again _ _ h => exact h

theorem HasSite.of_begins (h : P.Begins table σ) : P.HasSite table σ := ⟨P, .refl, h⟩

theorem HasSite.of_leads (hσ : Q.HasSite table σ) (h : P.Leads table Q) : P.HasSite table σ := by
  obtain ⟨R, hR, hσ⟩ := hσ
  exact ⟨R, h.trans hR, hσ⟩

theorem HasSite.of_next (h : P.Next table Q) (hσ : Q.HasSite table σ) : P.HasSite table σ :=
  hσ.of_leads (.single h)

/-- A stretch belongs to the first statement or to what follows. -/
theorem HasSite.cases (h : P.HasSite table σ) :
    P.Begins table σ ∨ ∃ Q, P.Next table Q ∧ Q.HasSite table σ := by
  obtain ⟨R, hR, hσ⟩ := h
  rcases Relation.ReflTransGen.cases_head hR with rfl | ⟨Q, hnext, hQ⟩
  · exact .inl hσ
  · exact .inr ⟨Q, hnext, R, hQ, hσ⟩

/-! ## The code at a point -/

/-- The code of what is left is a run of statements. -/
theorem Next.exists_segment (h : P.Next table Q)
    (hd : P.rest.draft table P.bindings = .ok (d, b)) (hs : d.HasShape s) :
    ∃ e b' t, Q.rest.draft table Q.bindings = .ok (e, b') ∧ e.HasShape t ∧
      Shape.Segment s P.offset t Q.offset := by
  -- the code before `Q` is determined by the lowering, and its shape gives the offset
  obtain ⟨rest, bindings, offset⟩ := P
  cases rest with
  | nil => cases h
  | plain =>
    obtain ⟨pieces, b₁, e, hpieces, he, rfl⟩ := Body.draft_plain_eq_ok hd
    cases hs with
    | code hfits hs =>
      cases h with
      | plain hp =>
        cases hp.symm.trans hpieces
        rw [width_plain]
        exact ⟨e, b, _, he, hs, .behind _ _ _⟩
  | conditional =>
    obtain ⟨pieces, test, b₁, inner, b₂, e, htest, hinner, he, rfl⟩ :=
      Body.draft_conditional_eq_ok hd
    cases hs with
    | code hfits hs =>
      cases hs with
      | conditional hbody hrest =>
        cases h with
        | ifBody ht =>
          cases ht.symm.trans htest
          rw [width_plain]
          exact ⟨inner, b₂, _, hinner, hbody, .behind_inside .ifBody (.refl _ _)⟩
        | ifRest ht hin =>
          cases ht.symm.trans htest
          cases hin.symm.trans hinner
          rw [width_plain, hbody.size_eq]
          exact ⟨e, b, _, he, hrest, .behind_inside .ifRest (.refl _ _)⟩
  | choice =>
    obtain ⟨pieces, test, b₁, inner, b₂, outer, b₃, e, htest, hinner, houter, he, rfl⟩ :=
      Body.draft_choice_eq_ok hd
    cases hs with
    | code hfits hs =>
      cases hs with
      | choice hbody hother hrest =>
        cases h with
        | choiceBody ht =>
          cases ht.symm.trans htest
          rw [width_plain]
          exact ⟨inner, b₂, _, hinner, hbody, .behind_inside .choiceBody (.refl _ _)⟩
        | choiceOther ht hin =>
          cases ht.symm.trans htest
          cases hin.symm.trans hinner
          rw [width_plain, hbody.size_eq]
          exact ⟨outer, b₃, _, houter, hother, .behind_inside .choiceOther (.refl _ _)⟩
        | choiceRest ht hin hout =>
          cases ht.symm.trans htest
          cases hin.symm.trans hinner
          cases hout.symm.trans houter
          rw [width_plain, hbody.size_eq, hother.size_eq]
          exact ⟨e, b, _, he, hrest, .behind_inside .choiceRest (.refl _ _)⟩
  | loop =>
    obtain ⟨pieces, test, b₁, inner, b₂, again, b₃, b₄, e, htest, hinner, hagain, hend, he, rfl⟩ :=
      Body.draft_loop_eq_ok hd
    cases hs with
    | code hfits hs =>
      cases hs with
      | loop hbody hrest =>
        obtain ⟨t, u, ht, hu, rfl⟩ := hbody.of_append
        cases h with
        | loopBody hlt =>
          cases hlt.symm.trans htest
          rw [width_plain]
          exact ⟨inner, b₂, t, hinner, ht, .behind_inside .loopBody .here⟩
        | loopRest hlt hin hag hen =>
          cases hlt.symm.trans htest
          cases hin.symm.trans hinner
          cases hag.symm.trans hagain
          cases hen.symm.trans hend
          rw [width_plain, ht.size_eq, hu.width_eq, ← Shape.size_append]
          exact ⟨e, b, _, he, hrest, .behind_inside .loopRest (.refl _ _)⟩
  | block =>
    obtain ⟨inner, b₁, e, hinner, he, rfl⟩ := Body.draft_block_eq_ok hd
    obtain ⟨t, u, ht, hu, rfl⟩ := hs.of_append
    cases h with
    | blockBody => exact ⟨inner, b₁, t, hinner, ht, .here⟩
    | blockRest hin =>
      cases hin.symm.trans hinner
      rw [ht.size_eq]
      exact ⟨e, b, u, he, hu, .behind _ _ _⟩

theorem Leads.exists_segment (h : P.Leads table Q)
    (hd : P.rest.draft table P.bindings = .ok (d, b)) (hs : d.HasShape s) :
    ∃ e b' t, Q.rest.draft table Q.bindings = .ok (e, b') ∧ e.HasShape t ∧
      Shape.Segment s P.offset t Q.offset := by
  induction h using Relation.ReflTransGen.head_induction_on generalizing d b s with
  | refl => exact ⟨d, b, s, hd, hs, .refl _ _⟩
  | head hnext _ ih =>
    obtain ⟨e, b', t, he, ht, hseg⟩ := hnext.exists_segment hd hs
    obtain ⟨e', b'', t', he', ht', hseg'⟩ := ih he ht
    exact ⟨e', b'', t', he', ht', hseg.trans hseg'⟩

/-- The first statement begins with its stretch, but for a loop's second test. -/
theorem Begins.exists_append (h : P.Begins table σ)
    (hagain : ∀ test cond, σ.stretch ≠ .again test cond)
    (hd : P.rest.draft table P.bindings = .ok (d, b)) (hs : d.HasShape s) :
    σ.start = P.offset ∧ σ.before = P.bindings ∧
      ∃ t u : Shape, σ.code = Assembly.plain t.instructions ∧ t.Fits ∧ s = t.append u := by
  cases h with
  | plain hp =>
    obtain ⟨pieces, b₁, e, hpieces, he, rfl⟩ := Body.draft_plain_eq_ok hd
    cases hp.symm.trans hpieces
    cases hs with
    | code hfits hs => exact ⟨rfl, rfl, _, _, rfl, hfits, rfl⟩
  | ifTest ht =>
    obtain ⟨pieces, test, b₁, inner, b₂, e, htest, hinner, he, rfl⟩ :=
      Body.draft_conditional_eq_ok hd
    cases ht.symm.trans htest
    cases hs with
    | code hfits hs => exact ⟨rfl, rfl, _, _, rfl, hfits, rfl⟩
  | choiceTest ht =>
    obtain ⟨pieces, test, b₁, inner, b₂, outer, b₃, e, htest, hinner, houter, he, rfl⟩ :=
      Body.draft_choice_eq_ok hd
    cases ht.symm.trans htest
    cases hs with
    | code hfits hs => exact ⟨rfl, rfl, _, _, rfl, hfits, rfl⟩
  | loopTest ht =>
    obtain ⟨pieces, test, b₁, inner, b₂, again, b₃, b₄, e, htest, hinner, hagain, hend, he, rfl⟩ :=
      Body.draft_loop_eq_ok hd
    cases ht.symm.trans htest
    cases hs with
    | code hfits hs => exact ⟨rfl, rfl, _, _, rfl, hfits, rfl⟩
  | again => exact (hagain _ _ rfl).elim

theorem Begins.exists_segment (h : P.Begins table σ)
    (hd : P.rest.draft table P.bindings = .ok (d, b)) (hs : d.HasShape s) :
    ∃ t, σ.code = Assembly.plain t.instructions ∧ t.Fits ∧ Shape.Segment s P.offset t σ.start := by
  by_cases hagain : ∃ test cond, σ.stretch = .again test cond
  · obtain ⟨test, cond, heq⟩ := hagain
    cases h with
    | again ht hin hag =>
      obtain ⟨pieces, test, b₁, inner, b₂, again, b₃, b₄, e, htest, hinner, hagain, hend, he,
        rfl⟩ := Body.draft_loop_eq_ok hd
      cases ht.symm.trans htest
      cases hin.symm.trans hinner
      cases hag.symm.trans hagain
      cases hs with
      | code hfits hs =>
        cases hs with
        | loop hbody hrest =>
          obtain ⟨t, u, ht, hu, rfl⟩ := hbody.of_append
          cases hu with
          | code hfits hnil =>
            cases hnil
            rw [width_plain, ht.size_eq, Shape.append_nil]
            exact ⟨_, rfl, hfits, .behind_inside .loopBody (.behind _ _ _)⟩
    | _ => cases heq
  · obtain ⟨hstart, -, t, u, hcode, hfits, rfl⟩ :=
      h.exists_append (fun test cond heq => hagain ⟨test, cond, heq⟩) hd hs
    exact ⟨t, hcode, hfits, hstart ▸ .here⟩

/-- **The code of every stretch is a run of statements.** -/
theorem HasSite.exists_segment (h : P.HasSite table σ)
    (hd : P.rest.draft table P.bindings = .ok (d, b)) (hs : d.HasShape s) :
    ∃ t, σ.code = plain t.instructions ∧ t.Fits ∧ Shape.Segment s P.offset t σ.start := by
  obtain ⟨Q, hQ, hσ⟩ := h
  obtain ⟨e, b', u, he, hu, hseg⟩ := hQ.exists_segment hd hs
  obtain ⟨t, hcode, hfits, hseg'⟩ := hσ.exists_segment he hu
  exact ⟨t, hcode, hfits, hseg.trans hseg'⟩

/-! ## The stretch of an instruction -/

/-- **An instruction that writes a register is one of a stretch.** -/
theorem exists_site {body : Linear.Body} {b' : Bindings} {base : Nat}
    (hd : body.draft table b = .ok (d, b')) (hs : d.HasShape s)
    (hpc : ⟨pc, i⟩ ∈ place base s.instructions) (hi : i.target? ≠ none) :
    ∃ σ, HasSite table ⟨body, b, base⟩ σ ∧ σ.Has pc i := by
  -- an instruction that sets a register is in a stretch: openings, jumps and ends set none
  induction body generalizing b b' d base s with
  | nil =>
    cases hd
    cases hs
    cases hpc
  | plain j hj rest ih =>
    obtain ⟨pieces, b₁, e, hpieces, he, rfl⟩ := Body.draft_plain_eq_ok hd
    cases hs with
    | code hfits hs =>
      rw [Shape.instructions_append, place_append, mem_append,
        Shape.length_encodeAll_instructions] at hpc
      rcases hpc with hpc | hpc
      · exact ⟨_, .of_begins (.plain hpieces), by rwa [Site.Has, Piece.all_plain]⟩
      · obtain ⟨σ, hσ, hhas⟩ := ih he hs hpc
        rw [← width_plain] at hσ
        exact ⟨σ, .of_next (.plain hpieces) hσ, hhas⟩
  | conditional cond body rest ihbody ihrest =>
    obtain ⟨pieces, test, b₁, inner, b₂, e, htest, hinner, he, rfl⟩ :=
      Body.draft_conditional_eq_ok hd
    cases hs with
    | code hfits hs =>
      cases hs with
      | conditional hbody hrest =>
        simp only [Shape.instructions_append, Shape.instructions, place_append, place,
          mem_append, mem_cons, Shape.length_encodeAll_instructions] at hpc
        rcases hpc with hpc | hpc | hpc | hpc | hpc
        · exact ⟨_, .of_begins (.ifTest htest), by rwa [Site.Has, Piece.all_plain]⟩
        · cases hpc
          exact (hi rfl).elim
        · obtain ⟨σ, hσ, hhas⟩ := ihbody hinner hbody hpc
          rw [← width_plain] at hσ
          exact ⟨σ, .of_next (.ifBody htest) hσ, hhas⟩
        · cases hpc
          exact (hi rfl).elim
        · obtain ⟨σ, hσ, hhas⟩ := ihrest he hrest hpc
          rw [← width_plain, ← hbody.size_eq] at hσ
          exact ⟨σ, .of_next (.ifRest htest hinner) hσ, hhas⟩
  | choice cond body other rest ihbody ihother ihrest =>
    obtain ⟨pieces, test, b₁, inner, b₂, outer, b₃, e, htest, hinner, houter, he, rfl⟩ :=
      Body.draft_choice_eq_ok hd
    cases hs with
    | code hfits hs =>
      cases hs with
      | choice hbody hother hrest =>
        simp only [Shape.instructions_append, Shape.instructions, place_append, place,
          mem_append, mem_cons, Shape.length_encodeAll_instructions] at hpc
        rcases hpc with hpc | hpc | hpc | hpc | hpc | hpc | hpc
        · exact ⟨_, .of_begins (.choiceTest htest), by rwa [Site.Has, Piece.all_plain]⟩
        · cases hpc
          exact (hi rfl).elim
        · obtain ⟨σ, hσ, hhas⟩ := ihbody hinner hbody hpc
          rw [← width_plain] at hσ
          exact ⟨σ, .of_next (.choiceBody htest) hσ, hhas⟩
        · cases hpc
          exact (hi rfl).elim
        · obtain ⟨σ, hσ, hhas⟩ := ihother houter hother hpc
          rw [← width_plain, ← hbody.size_eq] at hσ
          exact ⟨σ, .of_next (.choiceOther htest hinner) hσ, hhas⟩
        · cases hpc
          exact (hi rfl).elim
        · obtain ⟨σ, hσ, hhas⟩ := ihrest he hrest hpc
          rw [← width_plain, ← hbody.size_eq, ← hother.size_eq] at hσ
          exact ⟨σ, .of_next (.choiceRest htest hinner houter) hσ, hhas⟩
  | loop cond body rest ihbody ihrest =>
    obtain ⟨pieces, test, b₁, inner, b₂, again, b₃, b₄, e, htest, hinner, hagain, hend, he, rfl⟩ :=
      Body.draft_loop_eq_ok hd
    cases hs with
    | code hfits hs =>
      cases hs with
      | loop hbody hrest =>
        obtain ⟨t, u, ht, hu, rfl⟩ := hbody.of_append
        simp only [Shape.instructions_append, Shape.instructions, place_append, place,
          mem_append, mem_cons, Shape.length_encodeAll_instructions,
          encodeAll_append, length_append] at hpc
        rcases hpc with hpc | hpc | (hpc | hpc) | hpc | hpc
        · exact ⟨_, .of_begins (.loopTest htest), by rwa [Site.Has, Piece.all_plain]⟩
        · cases hpc
          exact (hi rfl).elim
        · obtain ⟨σ, hσ, hhas⟩ := ihbody hinner ht hpc
          rw [← width_plain] at hσ
          exact ⟨σ, .of_next (.loopBody htest) hσ, hhas⟩
        · refine ⟨_, .of_begins (.again htest hinner hagain), ?_⟩
          cases hu with
          | code hfits hnil =>
            cases hnil
            rw [Site.Has, Piece.all_plain, width_plain, ht.size_eq]
            rwa [Shape.append_nil] at hpc
        · cases hpc
          exact (hi rfl).elim
        · obtain ⟨σ, hσ, hhas⟩ := ihrest he hrest hpc
          rw [← width_plain, ← ht.size_eq, ← hu.width_eq] at hσ
          exact ⟨σ, .of_next (.loopRest htest hinner hagain hend) hσ, hhas⟩
  | block body rest ihbody ihrest =>
    obtain ⟨inner, b₁, e, hinner, he, rfl⟩ := Body.draft_block_eq_ok hd
    obtain ⟨t, u, ht, hu, rfl⟩ := hs.of_append
    rw [Shape.instructions_append, place_append, mem_append,
      Shape.length_encodeAll_instructions] at hpc
    rcases hpc with hpc | hpc
    · obtain ⟨σ, hσ, hhas⟩ := ihbody hinner ht hpc
      exact ⟨σ, .of_next .blockBody hσ, hhas⟩
    · obtain ⟨σ, hσ, hhas⟩ := ihrest he hu hpc
      rw [← ht.size_eq] at hσ
      exact ⟨σ, .of_next (.blockRest hinner) hσ, hhas⟩

end Point

end ImpMachine
