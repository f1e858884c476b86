import ImpMachine.Proofs.NestingCheck

/-!
# The constructs around an instruction

An instruction lies in a construct if it stands between the marks of the construct, with well-nested
code between them (`Within`). While the check reads well-nested code, its stack has exactly the
constructs that the next instruction lies in (`within_iff`): the check leaves a construct on the
stack until it has read all of it, and what it has on the stack is closed by the rest of the code.
-/

namespace ImpMachine.Linear

open List

variable {stack stack' : List Opened} {construct : Construct} {index : Nat} {i : Instr}
variable {code front rest inside : List Instr}

/-- The index lies in the undivided construct of the kind that begins at `first`, marks included. -/
def Within (code : List Instr) (construct : Construct) (first index : Nat) : Prop :=
  ∃ (front inner back : List Instr) (opener : Opener),
    code = front ++ opener.first :: (inner ++ opener.construct.last :: back) ∧
      opener.construct = construct ∧ WellNested inner ∧ front.length = first ∧
      first ≤ index ∧ index ≤ first + inner.length + 1

/-! ## What is below on the stack does not matter -/

/-- What is open below stays below. -/
theorem nestingStep_append (h : nestingStep index stack i = .ok stack') (below : List Opened) :
    nestingStep index (stack ++ below) i = .ok (stack' ++ below) := by
  rcases nestingStep_eq_ok h with ⟨opener, rfl, rfl⟩ | ⟨top, rfl, rfl⟩ |
    ⟨⟨opened, construct, hasElse⟩, outer, rfl, rfl, htop, helse, rfl⟩ | ⟨hplain, rfl⟩
  · exact nestingStep_first opener
  · exact nestingStep_last
  · cases htop
    cases helse
    rfl
  · exact nestingStep_of_isPlain hplain

theorem nestingFrom_append_below (h : nestingFrom index stack code = .ok stack')
    (below : List Opened) :
    nestingFrom index (stack ++ below) code = .ok (stack' ++ below) := by
  induction code generalizing index stack with
  | nil =>
    cases h
    rfl
  | cons i rest ih =>
    obtain ⟨next, hstep, h⟩ := nestingFrom_cons_eq_ok h
    rw [nestingFrom_cons (nestingStep_append hstep below), ih h]

/-! ## From the construct to the stack -/

/-- Inside a construct the check has it on its stack. -/
theorem Within.exists_stack {first : Nat}
    (h : Within code construct first front.length) (hcode : code = front ++ rest)
    (hfirst : first < front.length) (hstack : nestingFrom 0 [] front = .ok stack) :
    ∃ above below, stack = above ++ ⟨first, construct, false⟩ :: below ∧
      nestingFrom 0 [] (code.take first) = .ok below := by
  obtain ⟨before, inner, back, opener, rfl, rfl, ⟨n, rfl⟩, rfl, -, hlast⟩ := h
  obtain ⟨k, hk⟩ : ∃ k, front.length = before.length + (k + 1) :=
    ⟨front.length - before.length - 1, by omega⟩
  -- the part of the construct that was read: its opening mark and the start of its code
  have hread : front = before ++ opener.first :: n.flatten.take k :=
    calc
      front = (front ++ rest).take front.length := take_left.symm
      _ = before ++ opener.first :: n.flatten.take k := by
        rw [← hcode, hk, take_length_add_append, take_succ_cons,
          take_append_of_le_length (by omega)]
  rw [hread] at hstack
  obtain ⟨below, hbelow⟩ := exists_nestingFrom_front hstack
  have hinner : nestingFrom (before.length + 1) [] (n.flatten.take k ++ n.flatten.drop k) =
      .ok [] := by
    rw [take_append_drop]
    exact n.balanced_flatten _ _
  obtain ⟨above, habove⟩ := exists_nestingFrom_front hinner
  have hrun := nestingFrom_append_below habove (⟨before.length, opener.construct, false⟩ :: below)
  rw [nestingFrom_append hbelow, nestingFrom_cons (nestingStep_first opener), Nat.zero_add]
    at hstack
  refine ⟨above, below, Except.ok.inj (hstack.symm.trans hrun), ?_⟩
  rw [take_left, hbelow]

/-! ## From the stack to the construct -/

/-- What is left of code begins with the rest of the innermost construct. -/
theorem Remainder.exists_close {top : Opened} {outer : List Opened}
    (h : Remainder (top :: outer) rest) (hinside : Inside top.construct top.hasElse inside) :
    ∃ more after hasElse, rest = more ++ top.construct.last :: after ∧
      Inside top.construct hasElse (inside ++ more) ∧ Remainder outer after := by
  obtain ⟨opened, construct, hasElse⟩ := top
  cases h with
  | closed n hafter => exact ⟨_, _, _, rfl, hinside.append n, hafter⟩
  | divided n other htop helse hafter =>
    cases htop
    cases helse
    cases hinside with
    | body _ m =>
      refine ⟨n.flatten ++ .elseMark :: other.flatten, _, true, by simp [Construct.last], ?_,
        hafter⟩
      rw [← append_assoc, ← Nested.flatten_append]
      exact .branches _ _

theorem Inside.wellNested {hasElse : Bool}
    (h : Inside construct hasElse inside) (hne : construct ≠ .conditional) : WellNested inside := by
  cases h with
  | body _ n => exact ⟨n, rfl⟩
  | branches => exact absurd rfl hne

/-- Constructs on the stack began in the code read, the inner ones behind the outer. -/
theorem Pending.index_lt (h : Pending stack code) :
    (∀ o ∈ stack, o.index < code.length) ∧ stack.Pairwise fun o outer => outer.index < o.index := by
  induction h with
  | closed n => exact ⟨by simp, .nil⟩
  | @opened outer front inside hasElse opener _ _ ih =>
    have hlength : (front ++ opener.first :: inside).length = front.length + inside.length + 1 := by
      simp [Nat.add_assoc]
    refine ⟨forall_mem_cons.2 ⟨?_, fun o ho => ?_⟩, pairwise_cons.2 ⟨ih.1, ih.2⟩⟩
    · dsimp only
      omega
    · have hlt := ih.1 o ho
      omega

/-- A construct that is closed belongs to the code of the one around it. -/
theorem Pending.within {o : Opened} (h : Pending stack code)
    (hrest : Remainder stack rest) (ho : o ∈ stack) (hne : o.construct ≠ .conditional) :
    Within (code ++ rest) o.construct o.index code.length := by
  induction stack generalizing code rest with
  | nil => cases ho
  | cons top outer ih =>
    have hlt := h.index_lt.1 o ho
    cases h with
    | @opened _ front inside hasElse opener hfront hinside =>
      obtain ⟨more, after, hasElse', rfl, hinside', hafter⟩ := hrest.exists_close hinside
      rcases mem_cons.1 ho with rfl | ho
      · refine ⟨front, inside ++ more, after, opener, by simp, rfl, hinside'.wellNested hne, rfl,
          Nat.le_of_lt hlt, ?_⟩
        simp only [length_append, length_cons]
        omega
      · obtain ⟨n, hn⟩ := hinside'.exists_enclosed
        obtain ⟨before, inner, back, opener', hcode, hopener', hinner, hbefore, -, hlast⟩ :=
          ih (hfront.append n) hafter ho
        refine ⟨before, inner, back, opener', ?_, hopener', hinner, hbefore, Nat.le_of_lt hlt, ?_⟩
        · rw [← hcode, hn]
          simp
        · refine Nat.le_trans ?_ hlast
          rw [hn]
          simp only [length_append, length_cons]
          omega

/-- **The stack has the constructs around the next instruction**, but for one that it opens. -/
theorem within_iff (hcode : WellNested (front ++ i :: rest))
    (hstack : nestingFrom 0 [] front = .ok stack) (hne : construct ≠ .conditional) (first : Nat) :
    Within (front ++ i :: rest) construct first front.length ↔
      (∃ o ∈ stack, o.construct = construct ∧ o.index = first) ∨
        first = front.length ∧ i.opens? = some construct := by
  have hall := checkNesting_eq_ok_iff.1 (wellNested_iff.1 hcode)
  have hfrom : nestingFrom front.length stack (i :: rest) = .ok [] := by
    rwa [nestingFrom_append hstack, Nat.zero_add] at hall
  constructor
  · intro h
    by_cases hfirst : first < front.length
    · obtain ⟨above, below, rfl, -⟩ := h.exists_stack rfl hfirst hstack
      exact .inl ⟨⟨first, construct, false⟩, by simp, rfl, rfl⟩
    · obtain ⟨before, inner, back, opener, heq, rfl, -, rfl, hle, -⟩ := h
      obtain ⟨rfl, hback⟩ := append_inj heq (by omega)
      obtain ⟨rfl, -⟩ := List.cons.inj hback
      refine .inr ⟨rfl, ?_⟩
      cases opener <;> rfl
  · rintro (⟨o, ho, rfl, rfl⟩ | ⟨rfl, hopens⟩)
    · exact (Pending.of_nestingFrom hstack).within (remainder_of_nestingFrom hfrom) ho hne
    · -- the construct is on the stack behind its opening mark
      obtain ⟨opener, rfl, rfl⟩ := exists_opener_of_opens? hopens
      have hopen : nestingFrom 0 [] (front ++ [opener.first]) =
          .ok (⟨front.length, opener.construct, false⟩ :: stack) := by
        rw [nestingFrom_append hstack, nestingFrom_cons (nestingStep_first opener), Nat.zero_add]
        rfl
      rw [nestingFrom_cons (nestingStep_first opener)] at hfrom
      obtain ⟨before, inner, back, opener', heq, hopener', hinner, hbefore, -, -⟩ :=
        (Pending.of_nestingFrom hopen).within (remainder_of_nestingFrom hfrom)
          (mem_cons_self ..) hne
      refine ⟨before, inner, back, opener', by simpa using heq, hopener', hinner, hbefore,
        Nat.le_refl _, ?_⟩
      omega

end ImpMachine.Linear
