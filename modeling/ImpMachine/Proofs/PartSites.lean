import ImpMachine.Proofs.RunThrough
import ImpMachine.Proofs.SiteRegisters

/-!
# The stretches of an assembled program

Each part of a program is lowered from a point of its own: a function from what the functions before
it left, the top-level code from what all functions left (`Assembled.Begins`). An instruction that a
run executes and that writes a register is one of a stretch of the part on top of the stack
(`Tied.exists_site`).
-/

namespace ImpMachine

open Assembly Linear RegisterMap

variable {code : List Instr} {image : Image} {l : Linked image} {who : Option Function}
variable {i : Instruction} {σ : Site}

namespace Assembled

variable (a : Assembled code image)

/-- The parts of a program are those of any tree of its code. -/
theorem tree_eq {n : Nested} (h : n.flatten = code) :
    a.tree.body = n.body ∧ a.tree.routines = n.routines := by
  have hsplit := Nested.split_flatten a.tree
  have hparts := Nested.split_flatten n
  rw [h, ← a.flatten_tree, hsplit, Parts.mk.injEq] at hparts
  refine ⟨Body.flatten_injective hparts.1, List.map_injective_iff.2 ?_ hparts.2⟩
  rintro ⟨name, params, body⟩ ⟨name', params', body'⟩ heq
  obtain ⟨hname, hparams, hbody⟩ := Function.mk.inj heq
  exact Routine.mk.injEq .. ▸ ⟨hname, hparams, Body.flatten_injective hbody⟩

/-- The point from which a part is lowered. -/
inductive Begins : Part → Point → Prop where
  | main {is : List Instruction} : a.main.HasCode is →
      Begins ⟨a.tree.body, none, 0, is⟩ ⟨a.tree.body, a.between, 0⟩
  | function {k : Nat} {r : Routine} {d : Draft} {span : Span} {is : List Instruction}
      {ds : List Draft} {b : Bindings} :
      a.tree.routines[k]? = some r → a.drafts[k]? = some d → a.layout.spans[k]? = some span →
      d.HasCode is → draftAll a.table (a.tree.routines.take k) a.initial = .ok (ds, b) →
      Begins ⟨r.body, some ⟨r.name, r.params⟩, span.start, is⟩
        ⟨r.body, ⟨b.registers.resetTouched, some ⟨r.name, r.params⟩⟩, span.start⟩

/-- The stretches of a part. -/
def HasSite (p : Part) (σ : Site) : Prop :=
  ∃ P, a.Begins p P ∧ P.HasSite a.table σ

end Assembled

/-- The top-level code is on top of the stack when no call is unfinished. -/
theorem Linked.Placed.eq_none_iff {m : Machine} {rest : List (Option Function)}
    (h : l.Placed m (who :: rest)) : who = none ↔ m.calls = [] := by
  cases h with
  | cons _ htop _ _ _ hchain =>
    cases who with
    | none =>
      obtain rfl : rest = [] := htop
      generalize m.calls = calls at hchain
      cases hchain
      simp
    | some f =>
      obtain ⟨-, _, _, rfl, -⟩ := htop
      generalize m.calls = calls at hchain
      cases hchain
      simp

namespace Assembly

theorem Draft.HasShape.of_append_plain {d : Draft} {s : Shape} {hi : i.IsPlain}
    (h : (d.append (.code (plain [i]) .nil)).HasShape (s.append (.plain i hi .nil))) :
    d.HasShape s := by
  obtain ⟨t, u, ht, hu, heq⟩ := h.of_append
  have hinstructions : u.instructions = [i] := by
    generalize hpieces : plain [i] = pieces at hu
    cases hu with
    | @code _ v _ _ hnil =>
      cases hnil
      rw [Shape.append_nil]
      have hall := congrArg Piece.all hpieces
      rw [Piece.all_plain, Piece.all_plain] at hall
      exact hall.symm
  have heq := congrArg Shape.instructions heq
  rw [Shape.instructions_append, Shape.instructions_append, hinstructions] at heq
  rwa [Shape.instructions_injective (List.append_cancel_right heq)]

end Assembly

namespace Tied

variable {a : Assembled code image}
variable {turns : List Turn} {p : Part} {P : Point} {t : Turn} {r : Register}

/-- The part is a function that is lowered from the point in its turn. -/
structure InTurnAt (a : Assembled code image) (l : Linked image) (p : Part) (P : Point) (t : Turn) :
    Prop where
  isOf : p.IsOf l t
  drafted : ∃ b₁ b₂, t.routine.draft a.table b₁ = .ok (t.draft, b₂) ∧ b₁.registers = t.before ∧
    b₂.registers = t.after ∧ P = ⟨t.routine.body, ⟨b₁.registers.resetTouched, t.scope⟩, p.start⟩
  shape : ∃ s, l.Owner (some t.routine.function) p.start s ∧ t.draft.HasShape (s.append retShape)

/-- A part is lowered from what all functions left, or those before it. -/
theorem begins_cases (h : Tied a l turns) (hP : a.Begins p P) :
    p.scope = none ∧ p.body = a.tree.body ∧ P = ⟨a.tree.body, a.between, 0⟩ ∨
      ∃ t ∈ turns, InTurnAt a l p P t := by
  cases hP with
  | main his => exact .inl ⟨rfl, rfl, rfl⟩
  | @function k r d span is ds b hroutine hdraft hspan his hds =>
    rw [← h.routines_eq, List.getElem?_map] at hroutine
    obtain ⟨t, ht, rfl⟩ := Option.map_eq_some_iff.1 hroutine
    rw [h.getElem?_drafts ht] at hdraft
    cases hdraft
    obtain ⟨s, span', -, hspan', hshape, howner⟩ := h.exists_owner ht
    cases hspan.symm.trans hspan'
    obtain ⟨ds', b₁, b₂, hds', hdrafted, hbefore, hafter, -⟩ := h.isAt k t ht
    cases hds.symm.trans hds'
    exact .inr ⟨t, List.mem_of_getElem? ht, h.isOf_of_hasCode ht hspan his,
      ⟨b, b₂, hdrafted, hbefore, hafter, rfl⟩, s, howner, hshape⟩

theorem mentions_begins (h : Tied a l turns) (hP : a.Begins p P) :
    P.mentions a.table.signatures = a.mentions p ∧ P.assigns a.table.signatures = a.assigns p := by
  rcases h.begins_cases hP with ⟨hscope, hbody, rfl⟩ | ⟨t, -, hof, ⟨b₁, b₂, -, -, -, rfl⟩, -⟩
  · simp only [Point.mentions, Point.assigns, Assembled.mentions, Assembled.assigns, hscope, hbody,
      h.scope_eq, and_self]
  · simp only [Point.mentions, Point.assigns, Assembled.mentions, Assembled.assigns, hof.scope_eq,
      hof.body_eq, and_self]

theorem exists_mainDraft (h : Tied a l turns) :
    ∃ d b, a.tree.body.draft a.table a.between = .ok (d, b) ∧ d.HasShape l.main := by
  obtain ⟨d, hd, hmain⟩ := mainDraft_eq_ok a.main_eq
  have hshape := h.main
  rw [hmain] at hshape
  exact ⟨d, _, hd, hshape.of_append_plain⟩

/-- The draft of a part's body and its shape, with or without the return. -/
theorem exists_draft (h : Tied a l turns) (hP : a.Begins p P) :
    ∃ who s u d b, l.Owner who P.offset s ∧ (who = none ↔ p.scope = none) ∧
      P.rest.draft a.table P.bindings = .ok (d, b) ∧ d.HasShape (s.append u) ∧
      (u = .nil ∨ u = retShape) := by
  rcases h.begins_cases hP with
    ⟨hscope, -, rfl⟩ | ⟨t, -, hof, ⟨b₁, b₂, hdrafted, -, -, rfl⟩, s, howner, hshape⟩
  · obtain ⟨d, b, hd, hshape⟩ := h.exists_mainDraft
    refine ⟨none, l.main, .nil, d, b, .main, by simp [hscope], hd, ?_, .inl rfl⟩
    rwa [Shape.append_nil]
  · have hscope : p.scope ≠ none := by simp [hof.scope_eq, Turn.scope]
    obtain ⟨d, b, hd, -, heq⟩ := Routine.draft_eq_ok hdrafted
    rcases heq with heq | heq
    · exact ⟨_, s, retShape, d, b, howner, by simp [hscope], hd, heq ▸ hshape, .inr rfl⟩
    · rw [heq] at hshape
      refine ⟨_, s, .nil, d, b, howner, by simp [hscope], hd, ?_, .inl rfl⟩
      rw [Shape.append_nil]
      exact hshape.of_append_plain

/-- The part that a body of the code belongs to. -/
theorem exists_begins_of_owner (h : Tied a l turns) {base : Nat} {s : Shape}
    (howner : l.Owner who base s) :
    ∃ p P u d b, a.Begins p P ∧ P.offset = base ∧ (who = none ↔ p.scope = none) ∧
      P.rest.draft a.table P.bindings = .ok (d, b) ∧ d.HasShape (s.append u) := by
  have hfound {p : Part} {P : Point} (hP : a.Begins p P) (hbase : P.offset = base) :
      ∃ p P u d b, a.Begins p P ∧ P.offset = base ∧ (who = none ↔ p.scope = none) ∧
        P.rest.draft a.table P.bindings = .ok (d, b) ∧ d.HasShape (s.append u) := by
    obtain ⟨who', s', u, d, b, howner', hwho, hd, hu, -⟩ := h.exists_draft hP
    rw [hbase] at howner'
    obtain ⟨rfl, -, rfl⟩ := howner.unique howner' ⟨Nat.le_refl _, Nat.le_add_right _ _⟩
      ⟨Nat.le_refl _, Nat.le_add_right _ _⟩
    exact ⟨p, P, u, d, b, hP, hbase, hwho, hd, hu⟩
  cases howner with
  | main => exact hfound (.main ⟨_, h.main, rfl⟩) rfl
  | @routine k f s hget =>
    obtain ⟨t, hturn⟩ := h.exists_turn hget
    obtain ⟨s', span, -, hspan, hshape, hbase⟩ := h.exists_span hturn
    obtain ⟨ds, b₁, b₂, hds, -⟩ := h.isAt k _ hturn
    exact hfound (.function (h.getElem?_routines hturn) (h.getElem?_drafts hturn) hspan
      ⟨_, hshape, rfl⟩ hds) hbase

theorem since_site (h : Tied a l turns) (hP : a.Begins p P) (hσ : P.HasSite a.table σ) :
    (Permit.mk (a.mentions p) (a.assigns p) [] P.bindings.registers).Grants
        (σ.mentions a.table.signatures) (σ.assigns a.table.signatures) ∧
      (Permit.mk (a.mentions p) (a.assigns p) [] P.bindings.registers).Since
        σ.before.registers := by
  obtain ⟨hmentions, hassigns⟩ := h.mentions_begins hP
  rw [← hmentions, ← hassigns]
  exact hσ.since_point

/-- The code of a stretch is part of that of its function. -/
theorem InTurnAt.sets (hat : InTurnAt a l p P t) (hσ : P.HasSite a.table σ)
    (hr : Sets (Piece.all σ.code) r) : Sets t.code r := by
  obtain ⟨b₁, b₂, hdrafted, -, -, rfl⟩ := hat.drafted
  obtain ⟨s, -, hshape⟩ := hat.shape
  obtain ⟨d, b, hd, -, heq⟩ := Routine.draft_eq_ok hdrafted
  obtain ⟨body, hbody, hsubset⟩ : ∃ body, d.HasShape body ∧
      body.instructions ⊆ (s.append retShape).instructions := by
    rcases heq with heq | heq
    · exact ⟨_, heq ▸ hshape, fun _ => id⟩
    · obtain ⟨body, ending, hbody, -, hends⟩ := (heq ▸ hshape).of_append
      rw [hends, Shape.instructions_append]
      exact ⟨body, hbody, List.subset_append_left _ _⟩
  obtain ⟨t₀, hcode, -, hseg⟩ := hσ.exists_segment hd hbody
  rw [hcode, Piece.all_plain] at hr
  obtain ⟨i, hi, htarget⟩ := hr
  exact hshape.sets_iff.1 ⟨i, hsubset (hseg.subset hi), htarget⟩

/-- **What writes a register is in a stretch of the part on top of the stack.** -/
theorem exists_site (h : Tied a l turns) {config : RunConfig} {s : Session}
    (hs : Session.Reachable config image.code s) (hactive : s.isActive image.code = true)
    (hdecode : Instruction.decode image.code s.machine.pc = .ok i) (hi : i.target? ≠ none) :
    ∃ p σ, a.HasSite p σ ∧ σ.Has s.machine.pc i ∧ (p.scope = none ↔ s.machine.calls = []) := by
  have hrunning := (Session.isActive_iff.1 hactive).1
  obtain ⟨who, rest, hplaced, -⟩ := l.inside_of_running hs hrunning
  rcases hplaced.exists_at hdecode with ⟨base, body, starts, outer, howner, -, hat⟩ | rfl | rfl
  · obtain ⟨p, P, u, d, b, hP, rfl, hwho, hd, hu⟩ := h.exists_begins_of_owner howner
    obtain ⟨σ, hσ, hhas⟩ := Point.exists_site hd hu (hat.append u).mem_place hi
    exact ⟨p, σ, ⟨P, hP, hσ⟩, hhas, hwho.symm.trans hplaced.eq_none_iff⟩
  · exact (hi rfl).elim
  · exact (hi rfl).elim

end Tied

end ImpMachine
