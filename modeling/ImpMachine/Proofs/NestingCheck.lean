import ImpMachine.Proofs.Balance
import Mathlib.Order.Bounds.Basic

/-!
# The nesting check is exact

The check accepts exactly the code that a tree writes out (`WellNested`). Where it fails it names an
instruction, and it is the right one (`checkNesting_exact`): the first that no code can mend, or, if
all of the code can still be continued, the opening mark of the innermost construct left open.

The stack of the check says how the code read so far is put together (`Pending`): in front of every
open construct stands what the constructs around it explain, and behind its opening mark whole
constructs only, with at most one dividing mark between them. All of this can be closed from the
inside out, so code can be continued exactly if the check goes through it (`extendable_iff`).
-/

namespace ImpMachine.Linear

open List

variable {i : Instr} {code : List Instr} {index : Nat} {outer stack stack' : List Opened}

/-- The code is a tree written out. -/
def WellNested (code : List Instr) : Prop :=
  ∃ n : Nested, n.flatten = code

/-- Some code behind it makes the code well nested. -/
def Extendable (code : List Instr) : Prop :=
  ∃ rest, WellNested (code ++ rest)

/-- What stands in a construct in front of its end mark, in a conditional perhaps two branches. -/
inductive Inside : Construct → (hasElse : Bool) → List Instr → Prop where
  | body (construct : Construct) (n : Nested) : Inside construct false n.flatten
  | branches (n other : Nested) :
      Inside .conditional true (n.flatten ++ .elseMark :: other.flatten)

/-- The construct opened at the index is left open, and all behind its opening mark is closed. -/
def InnermostOpen (code : List Instr) (index : Nat) : Prop :=
  ∃ (front inside : List Instr) (opener : Opener) (hasElse : Bool),
    code = front ++ opener.first :: inside ∧ front.length = index ∧
      Inside opener.construct hasElse inside

/-! ## Where the check fails -/

section Steps

variable {front rest : List Instr} {e : StructureError}

/-- An instruction that does not fit is reported at its own index. -/
theorem index_of_nestingStep_eq_error (h : nestingStep index stack i = .error e) :
    e.index = index := by
  unfold nestingStep at h
  split at h
  · cases h
  · unfold takeClose at h
    split at h
    · cases h
      rfl
    · split at h <;> cases h
      rfl
  · split at h
    · unfold takeElse at h
      split at h
      · cases h
        rfl
      · split at h
        · split at h <;> cases h
          rfl
        · cases h
          rfl
    · cases h

/-- The check goes through all in front of the instruction that it reports. -/
theorem nestingFrom_eq_error (h : nestingFrom index stack code = .error e) :
    ∃ front i rest reached, code = front ++ i :: rest ∧
      nestingFrom index stack front = .ok reached ∧
      nestingFrom index stack (front ++ [i]) = .error e ∧ e.index = index + front.length := by
  induction code generalizing index stack with
  | nil => cases h
  | cons i rest ih =>
    cases hstep : nestingStep index stack i with
    | error e' =>
      have hfails : nestingFrom index stack [i] = .error e' := by rw [nestingFrom, hstep]
      rw [nestingFrom, hstep] at h
      cases h
      exact ⟨[], i, rest, stack, rfl, rfl, hfails, index_of_nestingStep_eq_error hstep⟩
    | ok next =>
      rw [nestingFrom_cons hstep] at h
      obtain ⟨front, j, behind, reached, rfl, hfront, hfails, hindex⟩ := ih h
      refine ⟨i :: front, j, behind, reached, rfl, ?_, ?_, ?_⟩
      · rw [nestingFrom_cons hstep, hfront]
      · rw [cons_append, nestingFrom_cons hstep, hfails]
      · rw [hindex, length_cons]
        omega

/-- The check goes through the start of all code that it goes through. -/
theorem exists_nestingFrom_front (h : nestingFrom index stack (front ++ rest) = .ok stack') :
    ∃ reached, nestingFrom index stack front = .ok reached := by
  induction front generalizing index stack with
  | nil => exact ⟨stack, rfl⟩
  | cons i front ih =>
    rw [cons_append] at h
    obtain ⟨next, hstep, h⟩ := nestingFrom_cons_eq_ok h
    obtain ⟨reached, hreached⟩ := ih h
    exact ⟨reached, by rw [nestingFrom_cons hstep, hreached]⟩

theorem nestingFrom_closing (index : Nat) (stack : List Opened) :
    nestingFrom index stack (stack.map (·.construct.last)) = .ok [] := by
  induction stack generalizing index with
  | nil => rfl
  | cons top outer ih => rw [map_cons, nestingFrom_cons nestingStep_last, ih]

end Steps

/-- The check accepts code that leaves nothing open. -/
theorem checkNesting_eq_ok_iff : checkNesting code = .ok () ↔ nestingFrom 0 [] code = .ok [] := by
  unfold checkNesting
  split <;> simp_all

/-- **The check accepts exactly the well-nested code.** -/
theorem wellNested_iff : WellNested code ↔ checkNesting code = .ok () := by
  constructor
  · rintro ⟨n, rfl⟩
    exact balanced_iff.1 n.balanced_flatten
  · exact exists_nested_of_checkNesting

/-- **Code can be continued exactly if the check goes through it.** -/
theorem extendable_iff : Extendable code ↔ ∃ stack, nestingFrom 0 [] code = .ok stack := by
  constructor
  · rintro ⟨rest, hrest⟩
    exact exists_nestingFrom_front (checkNesting_eq_ok_iff.1 (wellNested_iff.1 hrest))
  · rintro ⟨stack, hstack⟩
    refine ⟨stack.map (·.construct.last), wellNested_iff.2 (checkNesting_eq_ok_iff.2 ?_)⟩
    rw [nestingFrom_append hstack, nestingFrom_closing]

/-! ## What the stack says -/

/-- One sequence behind the other. -/
def Nested.append : Nested → Nested → Nested
  | .nil, other => other
  | .plain i h rest, other => .plain i h (rest.append other)
  | .enclosed opener body rest, other => .enclosed opener body (rest.append other)
  | .choice cond body alternative rest, other => .choice cond body alternative (rest.append other)

theorem Nested.flatten_append (n other : Nested) :
    (n.append other).flatten = n.flatten ++ other.flatten := by
  induction n with
  | nil => rfl
  | plain i h rest ih | enclosed opener body rest _ ih | choice cond body alternative rest _ _ ih =>
    simp [append, flatten, ih]

namespace Inside

variable {construct : Construct} {hasElse : Bool} {inside : List Instr}

theorem append (h : Inside construct hasElse inside) (n : Nested) :
    Inside construct hasElse (inside ++ n.flatten) := by
  cases h with
  | body _ m =>
    rw [← Nested.flatten_append]
    exact .body _ _
  | branches m other =>
    rw [append_assoc, cons_append, ← Nested.flatten_append]
    exact .branches _ _

/-- With its marks around it, what stands in a construct is a whole one. -/
theorem exists_enclosed {opener : Opener} (h : Inside opener.construct hasElse inside) :
    ∃ n : Nested, n.flatten = opener.first :: (inside ++ [opener.construct.last]) := by
  generalize hconstruct : opener.construct = construct at h
  cases h with
  | body _ n => exact ⟨.enclosed opener n .nil, by rw [← hconstruct]; rfl⟩
  | branches n other =>
    cases opener with
    | conditional cond =>
      exact ⟨.choice cond n other .nil, by simp [Nested.flatten, Opener.first, Construct.last]⟩
    | _ => cases hconstruct

/-- What stands in a construct changes no other construct. -/
theorem nestingFrom_eq {opened : Nat} (h : Inside construct hasElse inside) :
    nestingFrom index (⟨opened, construct, false⟩ :: outer) inside =
      .ok (⟨opened, construct, hasElse⟩ :: outer) := by
  cases h with
  | body _ n => exact n.balanced_flatten _ _
  | branches n other =>
    have hdivide (later : Nat) :
        nestingStep later (⟨opened, .conditional, false⟩ :: outer) .elseMark =
          .ok (⟨opened, .conditional, true⟩ :: outer) := rfl
    rw [nestingFrom_append (n.balanced_flatten _ _), nestingFrom_cons (hdivide _),
      other.balanced_flatten]

end Inside

/-- The open constructs explain the code read so far. -/
inductive Pending : List Opened → List Instr → Prop where
  | closed (n : Nested) : Pending [] n.flatten
  | opened {outer : List Opened} {front inside : List Instr} {hasElse : Bool} (opener : Opener) :
      Pending outer front → Inside opener.construct hasElse inside →
      Pending (⟨front.length, opener.construct, hasElse⟩ :: outer)
        (front ++ opener.first :: inside)

namespace Pending

theorem append (h : Pending stack code) (n : Nested) : Pending stack (code ++ n.flatten) := by
  cases h with
  | closed m =>
    rw [← Nested.flatten_append]
    exact .closed _
  | opened opener hfront hinside =>
    rw [append_assoc, cons_append]
    exact .opened opener hfront (hinside.append n)

/-- An end mark makes the innermost construct a whole one, inside the next. -/
theorem step (h : Pending stack code)
    (hstep : nestingStep code.length stack i = .ok stack') : Pending stack' (code ++ [i]) := by
  rcases nestingStep_eq_ok hstep with ⟨opener, rfl, rfl⟩ | ⟨top, rfl, rfl⟩ |
    ⟨top, outer, rfl, rfl, htop, helse, rfl⟩ | ⟨hplain, rfl⟩
  · exact .opened opener h (.body _ .nil)
  · cases h with
    | opened opener hfront hinside =>
      obtain ⟨n, hn⟩ := hinside.exists_enclosed
      have hclosed := hfront.append n
      rw [hn] at hclosed
      simpa using hclosed
  · cases h with
    | @opened _ front inside hasElse opener hfront hinside =>
      cases opener with
      | conditional cond =>
        cases hinside with
        | body _ n =>
          simpa [Nested.flatten] using
            Pending.opened (.conditional cond) hfront (.branches n .nil)
        | branches => cases helse
      | _ => cases htop
  · exact h.append (.plain i hplain .nil)

/-- **The stack of the check explains the code.** -/
theorem of_nestingFrom (h : nestingFrom 0 [] code = .ok stack) : Pending stack code := by
  have hrun {rest front : List Instr} {reached : List Opened} (hfront : Pending reached front)
      (h : nestingFrom front.length reached rest = .ok stack) : Pending stack (front ++ rest) := by
    induction rest generalizing front reached with
    | nil =>
      cases h
      simpa using hfront
    | cons i rest ih =>
      obtain ⟨next, hstep, h⟩ := nestingFrom_cons_eq_ok h
      have hnext := hfront.step hstep
      have hlength : (front ++ [i]).length = front.length + 1 := length_append
      rw [← hlength] at h
      simpa using ih hnext h
  exact hrun (.closed .nil) h

end Pending

/-- The innermost construct on the stack is the innermost one left open. -/
theorem innermostOpen_iff {top : Opened} (h : nestingFrom 0 [] code = .ok (top :: outer))
    (index : Nat) : InnermostOpen code index ↔ index = top.index := by
  constructor
  · rintro ⟨front, inside, opener, hasElse, rfl, rfl, hinside⟩
    obtain ⟨reached, hreached⟩ := exists_nestingFrom_front h
    rw [nestingFrom_append hreached, nestingFrom_cons (nestingStep_first opener),
      hinside.nestingFrom_eq] at h
    cases h
    exact Nat.zero_add _ |>.symm
  · rintro rfl
    cases Pending.of_nestingFrom h with
    | opened opener _ hinside => exact ⟨_, _, opener, _, rfl, rfl, hinside⟩

/-- **The nesting check is exact.** It accepts the code that a tree writes out and no other. Where
it fails, the index that it reports is one of the code: the least at which the code can no longer be
continued to well-nested code, or, if all of the code can be, the index at which the innermost
construct left open begins. -/
theorem checkNesting_exact (code : List Instr) :
    (checkNesting code = .ok () ↔ WellNested code) ∧
      ∀ e, checkNesting code = .error e → e.index < code.length ∧
        ((∃ i < code.length, ¬Extendable (code.take (i + 1))) →
          IsLeast {i | i < code.length ∧ ¬Extendable (code.take (i + 1))} e.index) ∧
        ((∀ i < code.length, Extendable (code.take (i + 1))) →
          ∀ index, InnermostOpen code index ↔ index = e.index) := by
  refine ⟨wellNested_iff.symm, fun e he => ?_⟩
  unfold checkNesting at he
  split at he
  · -- the check stops at an instruction
    rename_i e' hfrom
    cases he
    obtain ⟨front, i, rest, reached, rfl, hfront, hfails, hindex⟩ := nestingFrom_eq_error hfrom
    rw [Nat.zero_add] at hindex
    have hlt : e.index < (front ++ i :: rest).length := by
      rw [hindex, length_append, length_cons]
      omega
    have hstops : ¬Extendable ((front ++ i :: rest).take (e.index + 1)) := by
      rw [extendable_iff, hindex, take_length_add_append, take_succ_cons, take_zero,
        hfails]
      rintro ⟨stack, ⟨⟩⟩
    refine ⟨hlt, fun _ => ⟨⟨hlt, hstops⟩, fun k hk => ?_⟩, fun hall => absurd (hall _ hlt) hstops⟩
    -- everything before it can be continued
    rw [hindex]
    by_contra hbefore
    refine hk.2 (extendable_iff.2 ?_)
    have hsplit : front = front.take (k + 1) ++ front.drop (k + 1) :=
      (take_append_drop _ _).symm
    rw [hsplit] at hfront
    rw [take_append_of_le_length (by omega)]
    exact exists_nestingFrom_front hfront
  · cases he
  · -- the check reaches the end, and constructs are left open
    rename_i top outer hfrom
    cases he
    have hall (k : Nat) : Extendable (code.take k) := by
      rw [← take_append_drop k code] at hfrom
      exact extendable_iff.2 (exists_nestingFrom_front hfrom)
    refine ⟨?_, ?_, fun _ => innermostOpen_iff hfrom⟩
    · obtain ⟨front, inside, opener, hasElse, rfl, hfront, -⟩ :=
        (innermostOpen_iff hfrom top.index).2 rfl
      change top.index < _
      rw [← hfront, length_append, length_cons]
      omega
    · rintro ⟨i, -, hi⟩
      exact absurd (hall (i + 1)) hi

/-- A block that ends inside a conditional. -/
def crossing : List Instr :=
  [.blockStart, .ifBegin (.var "x"), .elseMark, .print (.var "x"), .blockEnd, .endIf]

/-- A conditional in a function, without the end marks of both. -/
def unfinished : List Instr :=
  [.funcDecl "f" ["x"], .ifBegin (.var "x"), .elseMark, .whileBegin (.var "x"), .endWhile]

/-- The first code is reported at the end of the block, the second at the conditional, although the
loop in it begins later. -/
theorem checkNesting_exact_crossing :
    checkNesting crossing = .error ⟨4, .wrongClose "BLOCK_END" .conditional 1⟩ ∧
      IsLeast {i | i < crossing.length ∧ ¬Extendable (crossing.take (i + 1))} 4 ∧
      checkNesting unfinished = .error ⟨1, .neverClosed .conditional⟩ ∧
      ∀ index, InnermostOpen unfinished index ↔ index = 1 := by
  have hstops : ¬Extendable (crossing.take 5) := by
    rw [extendable_iff]
    rintro ⟨stack, ⟨⟩⟩
  have hgoes (i : Nat) : Extendable (unfinished.take i) := by
    have hfrom : nestingFrom 0 [] (unfinished.take i ++ unfinished.drop i) =
        .ok [⟨1, .conditional, true⟩, ⟨0, .function, false⟩] := by
      rw [take_append_drop]
      rfl
    exact extendable_iff.2 (exists_nestingFrom_front hfrom)
  refine ⟨rfl, ?_, rfl, ?_⟩
  · exact ((checkNesting_exact crossing).2 _ rfl).2.1 ⟨4, by decide, hstops⟩
  · exact ((checkNesting_exact unfinished).2 _ rfl).2.2 fun i _ => hgoes (i + 1)

end ImpMachine.Linear
