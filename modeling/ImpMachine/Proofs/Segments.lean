import ImpMachine.Proofs.LoopStack
import ImpMachine.Proofs.Ownership

/-!
# Runs of statements inside a shape

A shape has lists of statements inside one another. A run of statements of one of the lists is a
shape again (`Segment`), and control comes to it from outside only at its start
(`Segment.enters`). The instructions of a shape determine the shape, and those in front of others
determine a run in front of the others (`exists_append`).
-/

namespace ImpMachine

open List

variable {i j : Instruction} {r skip : UInt8} {starts outer next : List Nat}
variable {pc' stop offset' pc : Nat} {is js : List Instruction}

namespace Instruction.Moves

theorem of_plain (hi : i.IsPlain) (h : i.Moves pc starts pc' next) : pc' = pc + i.width := by
  cases h with
  | plain => rfl
  | _ => cases hi

theorem of_ifZero (h : (Instruction.ifZero r skip).Moves pc starts pc' next) :
    pc' = pc + 3 ∨ pc' = pc + 3 + skip.toNat := by
  cases h with
  | plain hplain => cases hplain
  | ifEnter => exact .inl rfl
  | ifSkip => exact .inr rfl

theorem of_jump {distance : UInt8} (h : (Instruction.jump distance).Moves pc starts pc' next) :
    pc' = pc + 2 + distance.toNat := by
  cases h with
  | plain hplain => cases hplain
  | jump => rfl

theorem of_endIf (h : Instruction.endIf.Moves pc starts pc' next) : pc' = pc + 1 := by
  cases h with
  | plain hplain => cases hplain
  | endIf => rfl

theorem of_whileLoop (h : (Instruction.whileLoop r skip).Moves pc starts pc' next) :
    pc' = pc + 3 ∨ pc' = pc + 3 + skip.toNat := by
  cases h with
  | plain hplain => cases hplain
  | whileEnter => exact .inl rfl
  | whileSkip => exact .inr rfl

theorem of_endWhile {start : Nat} (h : Instruction.endWhile.Moves pc (start :: starts) pc' next) :
    pc' = start ∨ pc' = pc + 1 := by
  cases h with
  | plain hplain => cases hplain
  | again => exact .inl rfl
  | done => exact .inr rfl

end Instruction.Moves

theorem Instruction.exists_moves (pc : Nat)
    (h : i = .endWhile → starts ≠ []) : ∃ pc' next, i.Moves pc starts pc' next := by
  cases i with
  | ifZero => exact ⟨_, _, .ifEnter⟩
  | jump => exact ⟨_, _, .jump⟩
  | endIf => exact ⟨_, _, .endIf⟩
  | whileLoop => exact ⟨_, _, .whileEnter⟩
  | endWhile =>
    obtain ⟨start, starts, rfl⟩ := exists_cons_of_ne_nil (h rfl)
    exact ⟨_, _, .done⟩
  | _ => exact ⟨_, _, .plain trivial⟩

namespace Shape

variable {s t u : Shape} {base offset : Nat}

theorem At.moves_bounds (h : s.At base pc i starts) (hfits : s.Fits)
    (hmoves : i.Moves pc (starts ++ outer) pc' next) : base ≤ pc' ∧ pc' ≤ base + s.size := by
  obtain ⟨_, -, hreaches⟩ := h.moves hfits hmoves
  exact hreaches.bounds

/-- A place is in the first shape or in the second. -/
theorem at_append (h : (s.append t).At base pc i starts) :
    s.At base pc i starts ∨ t.At (base + s.size) pc i starts := by
  induction s generalizing base with
  | nil => exact .inr h
  | plain j hj rest ih =>
    cases h with
    | plain => exact .inl .plain
    | plainRest h =>
      rw [size, ← Nat.add_assoc]
      exact (ih h).imp_left .plainRest
  | conditional test body rest _ ih =>
    cases h with
    | ifHead => exact .inl .ifHead
    | ifBody h => exact .inl (.ifBody h)
    | ifEnd => exact .inl .ifEnd
    | ifRest h =>
      simp only [size, ← Nat.add_assoc]
      exact (ih h).imp_left .ifRest
  | choice test body other rest _ _ ih =>
    cases h with
    | choiceHead => exact .inl .choiceHead
    | choiceBody h => exact .inl (.choiceBody h)
    | choiceMiddle => exact .inl .choiceMiddle
    | choiceOther h => exact .inl (.choiceOther h)
    | choiceEnd => exact .inl .choiceEnd
    | choiceRest h =>
      simp only [size, ← Nat.add_assoc]
      exact (ih h).imp_left .choiceRest
  | loop test body rest _ ih =>
    cases h with
    | loopHead => exact .inl .loopHead
    | loopBody h => exact .inl (.loopBody h)
    | loopEnd => exact .inl .loopEnd
    | loopRest h =>
      simp only [size, ← Nat.add_assoc]
      exact (ih h).imp_left .loopRest

/-- Places stay when something is put behind. -/
theorem At.append (h : s.At base pc i starts) (t : Shape) : (s.append t).At base pc i starts := by
  induction h with
  | plain => exact .plain
  | plainRest _ ih => exact .plainRest ih
  | ifHead => exact .ifHead
  | ifBody h => exact .ifBody h
  | ifEnd => exact .ifEnd
  | ifRest _ ih => exact .ifRest ih
  | choiceHead => exact .choiceHead
  | choiceBody h => exact .choiceBody h
  | choiceMiddle => exact .choiceMiddle
  | choiceOther h => exact .choiceOther h
  | choiceEnd => exact .choiceEnd
  | choiceRest _ ih => exact .choiceRest ih
  | loopHead => exact .loopHead
  | loopBody h => exact .loopBody h
  | loopEnd => exact .loopEnd
  | loopRest _ ih => exact .loopRest ih

/-! ## Lists inside lists -/

/-- The second shape is what follows the first statement of the first, or a list inside that
statement. -/
inductive Sublist : (s : Shape) → (base : Nat) → (t : Shape) → (offset : Nat) → Prop where
  | plain {i : Instruction} {hi : i.IsPlain} {rest : Shape} {base : Nat} :
      Sublist (.plain i hi rest) base rest (base + i.width)
  | ifBody {test : Register} {body rest : Shape} {base : Nat} :
      Sublist (.conditional test body rest) base body (base + 3)
  | ifRest {test : Register} {body rest : Shape} {base : Nat} :
      Sublist (.conditional test body rest) base rest (base + 3 + body.size + 1)
  | choiceBody {test : Register} {body other rest : Shape} {base : Nat} :
      Sublist (.choice test body other rest) base body (base + 3)
  | choiceOther {test : Register} {body other rest : Shape} {base : Nat} :
      Sublist (.choice test body other rest) base other (base + 3 + body.size + 2)
  | choiceRest {test : Register} {body other rest : Shape} {base : Nat} :
      Sublist (.choice test body other rest) base rest
        (base + 3 + body.size + 2 + other.size + 1)
  | loopBody {test : Register} {body rest : Shape} {base : Nat} :
      Sublist (.loop test body rest) base body (base + 3)
  | loopRest {test : Register} {body rest : Shape} {base : Nat} :
      Sublist (.loop test body rest) base rest (base + 3 + body.size + 1)

/-- Of the offsets from `offset` up to `stop`, control comes from elsewhere to the first only. -/
def Guarded (offset stop pc pc' : Nat) : Prop :=
  (pc < offset ∨ stop ≤ pc) ∧ (pc' ≤ offset ∨ stop ≤ pc')

/-- A step of code that stands apart from the offsets stays apart from them. -/
theorem At.guarded (h : s.At base pc i starts)
    (hfits : s.Fits) (hmoves : i.Moves pc (starts ++ outer) pc' next)
    (hapart : base + s.size ≤ offset ∨ stop ≤ base) : Guarded offset stop pc pc' := by
  have hbounds := h.bounds
  have hnext := h.moves_bounds hfits hmoves
  exact ⟨by omega, by omega⟩

namespace Sublist

/-- A list inside lies between the ends of the shape. -/
theorem bounds (h : Sublist s base t offset) : base ≤ offset ∧ offset + t.size ≤ base + s.size := by
  cases h <;> simp only [size] <;> omega

theorem fits (h : Sublist s base t offset) (hfits : s.Fits) : t.Fits := by
  cases h with
  | plain => exact hfits
  | ifBody | loopBody => exact hfits.2.1
  | ifRest | loopRest => exact hfits.2.2
  | choiceBody => exact hfits.2.2.1
  | choiceOther => exact hfits.2.2.2.1
  | choiceRest => exact hfits.2.2.2.2

theorem subset (h : Sublist s base t offset) : t.instructions ⊆ s.instructions := by
  intro i hi
  cases h <;> simp [instructions, hi]

/-- A step from the shape is one from the list inside, or leads to its start at most. -/
theorem at_or_guarded (h : Sublist s base t offset) (hfits : s.Fits)
    (hat : s.At base pc i starts) (hmoves : i.Moves pc (starts ++ outer) pc' next) :
    (∃ starts' around, t.At offset pc i starts' ∧ starts = starts' ++ around) ∨
      Guarded offset (offset + t.size) pc pc' := by
  cases hat with
  | @plain _ hi =>
    cases h
    have hwidth := i.width_pos
    have hnext := hmoves.of_plain hi
    exact .inr ⟨by omega, by omega⟩
  | plainRest hat =>
    cases h
    exact .inl ⟨_, [], hat, (List.append_nil _).symm⟩
  | ifHead =>
    have hskip := toNat_ofNat_of_le hfits.1
    have hnext := hmoves.of_ifZero
    cases h <;> exact .inr ⟨by omega, by omega⟩
  | ifBody hat =>
    cases h with
    | ifBody => exact .inl ⟨_, [], hat, (List.append_nil _).symm⟩
    | ifRest => exact .inr (hat.guarded hfits.2.1 hmoves (by omega))
  | ifEnd =>
    have hnext := hmoves.of_endIf
    cases h <;> exact .inr ⟨by omega, by omega⟩
  | ifRest hat =>
    cases h with
    | ifBody => exact .inr (hat.guarded hfits.2.2 hmoves (by omega))
    | ifRest => exact .inl ⟨_, [], hat, (List.append_nil _).symm⟩
  | choiceHead =>
    have hskip := toNat_ofNat_of_le hfits.1
    have hnext := hmoves.of_ifZero
    cases h <;> exact .inr ⟨by omega, by omega⟩
  | choiceBody hat =>
    cases h with
    | choiceBody => exact .inl ⟨_, [], hat, (List.append_nil _).symm⟩
    | choiceOther | choiceRest => exact .inr (hat.guarded hfits.2.2.1 hmoves (by omega))
  | choiceMiddle =>
    have hjump := toNat_ofNat_of_le hfits.2.1
    have hnext := hmoves.of_jump
    cases h <;> exact .inr ⟨by omega, by omega⟩
  | choiceOther hat =>
    cases h with
    | choiceOther => exact .inl ⟨_, [], hat, (List.append_nil _).symm⟩
    | choiceBody | choiceRest => exact .inr (hat.guarded hfits.2.2.2.1 hmoves (by omega))
  | choiceEnd =>
    have hnext := hmoves.of_endIf
    cases h <;> exact .inr ⟨by omega, by omega⟩
  | choiceRest hat =>
    cases h with
    | choiceRest => exact .inl ⟨_, [], hat, (List.append_nil _).symm⟩
    | choiceBody | choiceOther => exact .inr (hat.guarded hfits.2.2.2.2 hmoves (by omega))
  | loopHead =>
    have hskip := toNat_ofNat_of_le hfits.1
    have hnext := hmoves.of_whileLoop
    cases h <;> exact .inr ⟨by omega, by omega⟩
  | loopBody hat =>
    cases h with
    | loopBody => exact .inl ⟨_, _, hat, rfl⟩ -- the loop itself is one of those around its body
    | loopRest =>
      rw [List.append_assoc] at hmoves
      exact .inr (hat.guarded hfits.2.1 hmoves (by omega))
  | loopEnd =>
    have hnext := hmoves.of_endWhile
    cases h <;> exact .inr ⟨by omega, by omega⟩
  | loopRest hat =>
    cases h with
    | loopBody => exact .inr (hat.guarded hfits.2.2 hmoves (by omega))
    | loopRest => exact .inl ⟨_, [], hat, (List.append_nil _).symm⟩

end Sublist

/-! ## Runs of statements -/

/-- The second shape is a run of statements in a list of the first one. -/
inductive Segment : (s : Shape) → (base : Nat) → (t : Shape) → (offset : Nat) → Prop where
  | here {t rest : Shape} {base : Nat} : Segment (t.append rest) base t base
  | inside {s t u : Shape} {base offset offset' : Nat} :
      Sublist s base t offset → Segment t offset u offset' → Segment s base u offset'

namespace Segment

theorem refl (s : Shape) (base : Nat) : Segment s base s base := by
  have h := @here s .nil base
  rwa [append_nil] at h

/-- A run of statements lies between the ends of the shape. -/
theorem bounds (h : Segment s base t offset) : base ≤ offset ∧ offset + t.size ≤ base + s.size := by
  induction h with
  | here =>
    rw [size_append]
    omega
  | inside hsub _ ih =>
    have := hsub.bounds
    omega

theorem fits (h : Segment s base t offset) (hfits : s.Fits) : t.Fits := by
  induction h with
  | here => exact (fits_append.1 hfits).1
  | inside hsub _ ih => exact ih (hsub.fits hfits)

/-- What follows a run of statements. -/
theorem behind (s t : Shape) (base : Nat) : Segment (s.append t) base t (base + s.size) := by
  induction s generalizing base with
  | nil => exact refl t base
  | plain i hi rest ih =>
    rw [size, ← Nat.add_assoc]
    exact inside .plain (ih _)
  | conditional test body rest _ ih =>
    simp only [size, ← Nat.add_assoc]
    exact inside .ifRest (ih _)
  | choice test body other rest _ _ ih =>
    simp only [size, ← Nat.add_assoc]
    exact inside .choiceRest (ih _)
  | loop test body rest _ ih =>
    simp only [size, ← Nat.add_assoc]
    exact inside .loopRest (ih _)

/-- A run is one also with more behind it. -/
theorem append (h : Segment s base t offset) (rest : Shape) :
    Segment (s.append rest) base t offset := by
  induction h with
  | here =>
    rw [append_assoc]
    exact here
  | inside hsub hseg ih =>
    cases hsub with
    | plain => exact inside .plain ih
    | ifBody => exact inside .ifBody hseg
    | ifRest => exact inside .ifRest ih
    | choiceBody => exact inside .choiceBody hseg
    | choiceOther => exact inside .choiceOther hseg
    | choiceRest => exact inside .choiceRest ih
    | loopBody => exact inside .loopBody hseg
    | loopRest => exact inside .loopRest ih

theorem trans (h : Segment s base t offset) (h' : Segment t offset u offset') :
    Segment s base u offset' := by
  induction h with
  | here => exact h'.append _
  | inside hsub _ ih => exact inside hsub (ih h')

/-- Runs in a statement behind others. -/
theorem behind_inside {front v : Shape} (hsub : Sublist s (base + front.size) u offset)
    (h : Segment u offset v offset') : Segment (front.append s) base v offset' :=
  (behind front s base).trans (inside hsub h)

theorem subset (h : Segment s base t offset) : t.instructions ⊆ s.instructions := by
  induction h with
  | here =>
    rw [instructions_append]
    exact subset_append_left _ _
  | inside hsub _ ih => exact fun i hi => hsub.subset (ih hi)

/-- A step from the shape is one from the run, or leads to its start at most. -/
theorem at_or_guarded (h : Segment s base t offset) (hfits : s.Fits)
    (hat : s.At base pc i starts) (hmoves : i.Moves pc (starts ++ outer) pc' next) :
    (∃ starts' around, t.At offset pc i starts' ∧ starts = starts' ++ around) ∨
      Guarded offset (offset + t.size) pc pc' := by
  induction h generalizing starts outer with
  | @here t rest base =>
    rcases at_append hat with hat | hat
    · exact .inl ⟨_, [], hat, (List.append_nil _).symm⟩
    · exact .inr (hat.guarded (fits_append.1 hfits).2 hmoves (.inr (Nat.le_refl _)))
  | inside hsub hseg ih =>
    rcases hsub.at_or_guarded hfits hat hmoves with ⟨starts', around, hsubat, rfl⟩ | hguarded
    · rw [List.append_assoc] at hmoves
      rcases ih (hsub.fits hfits) hsubat hmoves with ⟨inner, around', hinner, rfl⟩ | hguarded
      · exact .inl ⟨inner, around' ++ around, hinner, List.append_assoc ..⟩
      · exact .inr hguarded
    · have hbounds := hseg.bounds
      unfold Guarded at hguarded ⊢
      omega

/-- A place between the ends of a run of statements is one of the run. -/
theorem restrict (h : Segment s base t offset) (hfits : s.Fits) (hat : s.At base pc i starts)
    (hpc : offset ≤ pc ∧ pc < offset + t.size) :
    ∃ starts' around, t.At offset pc i starts' ∧ starts = starts' ++ around := by
  obtain ⟨pc', next, hmoves⟩ := Instruction.exists_moves pc hat.starts_ne_nil
  refine (h.at_or_guarded hfits hat ((List.append_nil starts).symm ▸ hmoves)).resolve_right ?_
  rintro ⟨houtside, -⟩
  omega

end Segment

/-- The code of `t` stands at `offset` among that of `s`. -/
structure Contains (s : Shape) (base : Nat) (t : Shape) (offset : Nat) : Prop where
  fits : t.Fits
  bounds : base ≤ offset ∧ offset + t.size ≤ base + s.size
  restrict : ∀ {pc i starts}, s.At base pc i starts → offset ≤ pc ∧ pc < offset + t.size →
    ∃ starts' around, t.At offset pc i starts' ∧ starts = starts' ++ around

/-- A run of statements that ends inside the first part of a list. -/
theorem Segment.contains (h : Segment (s.append u) base t offset) (hfits : (s.append u).Fits)
    (hstop : offset + t.size ≤ base + s.size) : s.Contains base t offset :=
  ⟨h.fits hfits, ⟨h.bounds.1, hstop⟩, fun hat hpc => h.restrict hfits (hat.append u) hpc⟩

/-! ## Where control comes in -/

/-- Behind `offset` and before `last`, control comes only from `offset` on and before `stop`. -/
def Enters (s : Shape) (base offset stop last : Nat) : Prop :=
  ∀ ⦃pc i starts outer pc' next⦄, s.At base pc i starts →
    Instruction.Moves i pc (starts ++ outer) pc' next → offset < pc' → pc' < last →
    offset ≤ pc ∧ pc < stop

theorem Enters.of_append {last : Nat} (h : (s.append u).Enters base offset stop last) :
    s.Enters base offset stop last :=
  fun _ _ _ _ _ _ hat hmoves => h (hat.append u) hmoves

/-- Only a loop leads back to its start. -/
theorem At.lt_of_moves (h : s.At base pc i starts)
    (hfits : s.Fits) (hmoves : i.Moves pc (starts ++ outer) pc' next)
    (hloop : ∀ test body rest, s ≠ .loop test body rest) : base < pc' := by
  cases h with
  | plain =>
    rename_i hi
    have := i.width_pos
    have := hmoves.of_plain hi
    omega
  | plainRest h =>
    rename_i j _ _
    have := j.width_pos
    have := h.moves_bounds hfits hmoves
    omega
  | ifHead | choiceHead =>
    have := hmoves.of_ifZero
    omega
  | ifBody h =>
    have := h.moves_bounds hfits.2.1 hmoves
    omega
  | ifRest h =>
    have := h.moves_bounds hfits.2.2 hmoves
    omega
  | ifEnd | choiceEnd =>
    have := hmoves.of_endIf
    omega
  | choiceBody h =>
    have := h.moves_bounds hfits.2.2.1 hmoves
    omega
  | choiceMiddle =>
    have := hmoves.of_jump
    omega
  | choiceOther h =>
    have := h.moves_bounds hfits.2.2.2.1 hmoves
    omega
  | choiceRest h =>
    have := h.moves_bounds hfits.2.2.2.2 hmoves
    omega
  | loopHead | loopBody | loopEnd | loopRest => exact (hloop _ _ _ rfl).elim

/-- Control comes to what follows a run only from the run, if that is no loop. -/
theorem Segment.enters_append (h : Segment s base (t.append u) offset) (hfits : s.Fits)
    (hu : 0 < u.size) (hloop : ∀ test body rest, u ≠ .loop test body rest) :
    s.Enters base offset (offset + t.size) (offset + t.size + 1) := by
  intro pc i starts outer pc' next hat hmoves hafter hbefore
  have hboth := h.fits hfits
  rw [fits_append] at hboth
  rcases h.at_or_guarded hfits hat hmoves with ⟨starts', around, hinner, rfl⟩ | ⟨-, houtside⟩
  · rcases at_append hinner with hinner | hinner
    · exact hinner.bounds
    · rw [List.append_assoc] at hmoves
      have := hinner.lt_of_moves hboth.2 hmoves hloop
      omega
  · rw [size_append] at houtside
    omega

/-! ## Shapes and their instructions -/

/-- Instructions that divide or end a construct. -/
def Closes : Instruction → Prop
  | .jump _ | .endIf | .endWhile => True
  | _ => False

theorem not_closes_of_isPlain (hi : i.IsPlain) : ¬Closes i := by
  cases i with
  | jump | endIf | endWhile => cases hi
  | _ => exact id

/-- One list of statements begins with the other, and the instructions behind the shorter one are
those of the difference and those behind the longer one. -/
def Overlap (s : Shape) (is : List Instruction) (t : Shape) (js : List Instruction) : Prop :=
  (∃ u, t = s.append u ∧ is = u.instructions ++ js) ∨
    ∃ u, s = t.append u ∧ js = u.instructions ++ is

namespace Overlap

/-- Both lists behind one more statement. -/
theorem behind (h : Overlap s is t js) {f : Shape → Shape}
    (hf : ∀ s u, f (append s u) = (f s).append u) : Overlap (f s) is (f t) js := by
  rcases h with ⟨u, rfl, h⟩ | ⟨u, rfl, h⟩
  · exact .inl ⟨u, hf _ _, h⟩
  · exact .inr ⟨u, hf _ _, h⟩

theorem eq_nil_of_closes (h : i :: is = s.instructions ++ js) (hi : Closes i) : s = .nil := by
  cases s with
  | nil => rfl
  | plain k hk rest =>
    obtain ⟨rfl, -⟩ := List.cons.inj h
    exact (not_closes_of_isPlain hk hi).elim
  | _ =>
    obtain ⟨rfl, -⟩ := List.cons.inj h
    cases hi

theorem eq_of_closes (h : Overlap s (i :: is) t (j :: js)) (hi : Closes i) (hj : Closes j) :
    s = t ∧ i = j ∧ is = js := by
  rcases h with ⟨u, rfl, h⟩ | ⟨u, rfl, h⟩
  · obtain rfl := eq_nil_of_closes h hi
    obtain ⟨rfl, rfl⟩ := List.cons.inj h
    exact ⟨(append_nil s).symm, rfl, rfl⟩
  · obtain rfl := eq_nil_of_closes h hj
    obtain ⟨rfl, rfl⟩ := List.cons.inj h
    exact ⟨append_nil t, rfl, rfl⟩

end Overlap

/-- **Shapes whose instructions begin one code agree as far as both go.** -/
theorem overlap_of_instructions_append (h : s.instructions ++ is = t.instructions ++ js) :
    Overlap s is t js := by
  -- constructs that open alike are told apart by what closes the first body
  induction s generalizing t is js with
  | nil => exact .inl ⟨t, rfl, h⟩
  | plain k hk rest ih =>
    cases t with
    | nil => exact .inr ⟨_, rfl, h.symm⟩
    | plain k' hk' rest' =>
      obtain ⟨rfl, htail⟩ := List.cons.inj h
      exact (ih htail).behind (f := .plain k hk) fun _ _ => rfl
    | _ =>
      obtain ⟨rfl, -⟩ := List.cons.inj h
      cases hk
  | conditional test body rest ihbody ihrest =>
    cases t with
    | nil => exact .inr ⟨_, rfl, h.symm⟩
    | plain k hk rest' =>
      obtain ⟨rfl, -⟩ := List.cons.inj h
      cases hk
    | conditional test' body' rest' =>
      simp only [instructions, List.append_assoc, cons_append, List.cons.injEq] at h
      obtain ⟨hhead, h⟩ := h
      obtain ⟨rfl, -, h⟩ := (ihbody h).eq_of_closes trivial trivial
      obtain rfl := Register.byte_injective (Instruction.ifZero.inj hhead).1
      exact (ihrest h).behind (f := .conditional test body) fun _ _ => rfl
    | choice test' body' other' rest' =>
      simp only [instructions, List.append_assoc, cons_append, List.cons.injEq] at h
      cases ((ihbody h.2).eq_of_closes trivial trivial).2.1
    | loop => cases (List.cons.inj h).1
  | choice test body other rest ihbody ihother ihrest =>
    cases t with
    | nil => exact .inr ⟨_, rfl, h.symm⟩
    | plain k hk rest' =>
      obtain ⟨rfl, -⟩ := List.cons.inj h
      cases hk
    | conditional test' body' rest' =>
      simp only [instructions, List.append_assoc, cons_append, List.cons.injEq] at h
      cases ((ihbody h.2).eq_of_closes trivial trivial).2.1
    | choice test' body' other' rest' =>
      simp only [instructions, List.append_assoc, cons_append, List.cons.injEq] at h
      obtain ⟨hhead, h⟩ := h
      obtain ⟨rfl, -, h⟩ := (ihbody h).eq_of_closes trivial trivial
      obtain ⟨rfl, -, h⟩ := (ihother h).eq_of_closes trivial trivial
      obtain rfl := Register.byte_injective (Instruction.ifZero.inj hhead).1
      exact (ihrest h).behind (f := .choice test body other) fun _ _ => rfl
    | loop => cases (List.cons.inj h).1
  | loop test body rest ihbody ihrest =>
    cases t with
    | nil => exact .inr ⟨_, rfl, h.symm⟩
    | plain k hk rest' =>
      obtain ⟨rfl, -⟩ := List.cons.inj h
      cases hk
    | conditional | choice => cases (List.cons.inj h).1
    | loop test' body' rest' =>
      simp only [instructions, List.append_assoc, cons_append, List.cons.injEq] at h
      obtain ⟨hhead, h⟩ := h
      obtain ⟨rfl, -, h⟩ := (ihbody h).eq_of_closes trivial trivial
      obtain rfl := Register.byte_injective (Instruction.whileLoop.inj hhead).1
      exact (ihrest h).behind (f := .loop test body) fun _ _ => rfl

/-- If the instructions of a shape begin with those of another, so does the shape. -/
theorem exists_append (h : t.instructions = s.instructions ++ js) :
    ∃ u, t = s.append u ∧ u.instructions = js := by
  rw [← List.append_nil t.instructions] at h
  rcases overlap_of_instructions_append h with ⟨u, rfl, hu⟩ | ⟨u, rfl, rfl⟩
  · obtain ⟨hu, rfl⟩ := append_eq_nil_iff.1 hu.symm
    cases u with
    | nil => exact ⟨.nil, by simp only [append_nil], rfl⟩
    | _ => cases hu
  · exact ⟨u, rfl, (List.append_nil _).symm⟩

/-- **The instructions determine the shape.** -/
theorem instructions_injective (h : s.instructions = t.instructions) : s = t := by
  have hclosed : s.instructions ++ [.endIf] = t.instructions ++ [.endIf] := by rw [h]
  exact ((overlap_of_instructions_append hclosed).eq_of_closes trivial trivial).1

/-- A shape that begins with a plain instruction. -/
theorem of_head (h : s.instructions = i :: is) (hi : i.IsPlain) :
    0 < s.size ∧ ∀ test body rest, s ≠ .loop test body rest := by
  cases s with
  | nil => cases h
  | plain j hj rest =>
    have := j.width_pos
    exact ⟨by rw [size]; omega, fun _ _ _ => nofun⟩
  | conditional | choice | loop =>
    obtain ⟨rfl, -⟩ := List.cons.inj h
    cases hi

end Shape

end ImpMachine
