import ImpMachine.Linear.Nesting

/-!
# Linear code as a tree

Properly nested linear code is what one obtains by writing out a tree: a sequence whose members
are plain instructions and constructs with sequences inside (`Nested`). The nesting check accepts
only such code (`exists_nested_of_checkNesting`), and no code comes from two trees.

A `Body` is the same without declarations: the code of one function, or the code outside all.
-/

namespace ImpMachine.Linear

open List

variable {code after : List Instr} {index : Nat} {i : Instr}
variable {stack stack' : List Opened} {cond : Operand}

/-- The instruction neither opens, divides nor closes a construct. -/
def Instr.IsPlain (i : Instr) : Prop :=
  i.opens? = none ∧ i.closes? = none ∧ i ≠ .elseMark

/-- The opening mark of a construct. -/
inductive Opener where
  | conditional (cond : Operand)
  | loop (cond : Operand)
  | block
  | function (name : String) (params : List String)
  | macroBody (name : String)

namespace Opener

/-- The instruction that opens the construct. -/
def first : Opener → Instr
  | .conditional cond => .ifBegin cond
  | .loop cond => .whileBegin cond
  | .block => .blockStart
  | .function name params => .funcDecl name params
  | .macroBody name => .macroDecl name

/-- The kind of the construct. -/
def construct : Opener → Construct
  | .conditional _ => .conditional
  | .loop _ => .loop
  | .block => .block
  | .function .. => .function
  | .macroBody _ => .macroBody

end Opener

/-- The instruction that closes a construct. -/
def Construct.last : Construct → Instr
  | .conditional => .endIf
  | .loop => .endWhile
  | .function => .endFunc
  | .macroBody => .endMacro
  | .block => .blockEnd

/-- A sequence of instructions and constructs. -/
inductive Nested where
  | nil
  | plain (i : Instr) (isPlain : i.IsPlain) (rest : Nested)
  | enclosed (opener : Opener) (body rest : Nested)
  /-- A conditional with two branches. -/
  | choice (cond : Operand) (body other rest : Nested)

namespace Nested

/-- The sequence written out. -/
def flatten : Nested → List Instr
  | .nil => []
  | .plain i _ rest => i :: rest.flatten
  | .enclosed opener body rest =>
    opener.first :: (body.flatten ++ opener.construct.last :: rest.flatten)
  | .choice cond body other rest =>
    .ifBegin cond :: (body.flatten ++ .elseMark :: (other.flatten ++ .endIf :: rest.flatten))

end Nested

/-! ## What the check accepts -/

/-- What opens a construct is an opening mark. -/
theorem exists_opener_of_opens? {c : Construct} (h : i.opens? = some c) :
    ∃ opener : Opener, opener.first = i ∧ opener.construct = c := by
  cases i with
  | ifBegin cond => cases h; exact ⟨.conditional cond, rfl, rfl⟩
  | whileBegin cond => cases h; exact ⟨.loop cond, rfl, rfl⟩
  | blockStart => cases h; exact ⟨.block, rfl, rfl⟩
  | funcDecl name params => cases h; exact ⟨.function name params, rfl, rfl⟩
  | macroDecl name => cases h; exact ⟨.macroBody name, rfl, rfl⟩
  | _ => cases h

theorem eq_last_of_closes? {c : Construct} (h : i.closes? = some c) : i = c.last := by
  cases i <;> cases h <;> rfl

theorem takeClose_eq_ok {mnemonic : String} {c : Construct}
    (h : takeClose index mnemonic c stack = .ok stack') :
    ∃ top, stack = top :: stack' ∧ top.construct = c := by
  cases stack with
  | nil => cases h
  | cons top outer =>
    rw [takeClose] at h
    split at h
    · rename_i htop
      cases h
      exact ⟨top, rfl, htop⟩
    · cases h

theorem takeElse_eq_ok (h : takeElse index stack = .ok stack') :
    ∃ top outer, stack = top :: outer ∧ top.construct = .conditional ∧ top.hasElse = false ∧
      stack' = { top with hasElse := true } :: outer := by
  cases stack with
  | nil => cases h
  | cons top outer =>
    rw [takeElse] at h
    split at h
    · rename_i htop
      split at h
      · cases h
      · rename_i helse
        cases h
        exact ⟨top, outer, rfl, htop, by simpa using helse, rfl⟩
    · cases h

/-- An instruction opens a construct, closes or divides the innermost one, or is plain. -/
theorem nestingStep_eq_ok (h : nestingStep index stack i = .ok stack') :
    (∃ opener : Opener, i = opener.first ∧
        stack' = ⟨index, opener.construct, false⟩ :: stack) ∨
      (∃ top, stack = top :: stack' ∧ i = top.construct.last) ∨
      (∃ top outer, stack = top :: outer ∧ i = .elseMark ∧ top.construct = .conditional ∧
        top.hasElse = false ∧ stack' = { top with hasElse := true } :: outer) ∨
      (i.IsPlain ∧ stack' = stack) := by
  unfold nestingStep at h
  split at h
  · rename_i c _ hopens
    obtain ⟨opener, hfirst, rfl⟩ := exists_opener_of_opens? hopens
    exact .inl ⟨opener, hfirst.symm, (Except.ok.inj h).symm⟩
  · rename_i c hopens hcloses
    obtain ⟨top, rfl, rfl⟩ := takeClose_eq_ok h
    exact .inr (.inl ⟨top, rfl, eq_last_of_closes? hcloses⟩)
  · rename_i hopens hcloses
    split at h
    · obtain ⟨top, outer, rfl, htop, helse, rfl⟩ := takeElse_eq_ok h
      exact .inr (.inr (.inl ⟨top, outer, rfl, rfl, htop, helse, rfl⟩))
    · rename_i hne
      cases h
      exact .inr (.inr (.inr ⟨⟨hopens, hcloses, hne⟩, rfl⟩))

/-- What is left of accepted code when constructs are open: a sequence, the end of the innermost
construct, perhaps behind its other branch, and what is left for the others. -/
inductive Remainder : List Opened → List Instr → Prop where
  | done (n : Nested) : Remainder [] n.flatten
  | closed {top : Opened} {outer : List Opened} {rest : List Instr} (n : Nested) :
      Remainder outer rest → Remainder (top :: outer) (n.flatten ++ top.construct.last :: rest)
  | divided {top : Opened} {outer : List Opened} {rest : List Instr} (n other : Nested) :
      top.construct = .conditional → top.hasElse = false → Remainder outer rest →
      Remainder (top :: outer)
        (n.flatten ++ .elseMark :: (other.flatten ++ .endIf :: rest))

namespace Remainder

theorem prepend (h : Remainder stack code) (front : List Instr)
    (hfront : ∀ n : Nested, ∃ m : Nested, m.flatten = front ++ n.flatten) :
    Remainder stack (front ++ code) := by
  cases h with
  | done n =>
    obtain ⟨m, hm⟩ := hfront n
    exact hm ▸ .done m
  | closed n hrest =>
    obtain ⟨m, hm⟩ := hfront n
    rw [← append_assoc, ← hm]
    exact .closed m hrest
  | divided n other htop helse hrest =>
    obtain ⟨m, hm⟩ := hfront n
    rw [← append_assoc, ← hm]
    exact .divided m other htop helse hrest

end Remainder

/-- The rest of a construct's body is split off first, then what follows it. -/
theorem remainder_of_nestingFrom (h : nestingFrom index stack code = .ok []) :
    Remainder stack code := by
  induction code generalizing index stack with
  | nil =>
    cases h
    exact .done .nil
  | cons i rest ih =>
    unfold nestingFrom at h
    split at h
    · cases h
    · rename_i stack' hstep
      have hrest := ih h
      rcases nestingStep_eq_ok hstep with ⟨opener, rfl, rfl⟩ | ⟨top, rfl, rfl⟩ |
        ⟨top, outer, rfl, rfl, htop, helse, rfl⟩ | ⟨hplain, rfl⟩
      · -- an opening mark: the code up to where its construct is closed is the body
        cases hrest with
        | closed n hafter =>
          have h := hafter.prepend (opener.first :: (n.flatten ++ [opener.construct.last]))
            fun m => ⟨.enclosed opener n m, by simp [Nested.flatten]⟩
          simpa using h
        | divided n other htop _ hafter =>
          cases opener with
          | conditional cond =>
            have h := hafter.prepend
              (.ifBegin cond :: (n.flatten ++ .elseMark :: (other.flatten ++ [Instr.endIf])))
              fun m => ⟨.choice cond n other m, by simp [Nested.flatten]⟩
            simpa [Opener.first] using h
          | _ => cases htop
      · exact .closed .nil hrest
      · -- a dividing mark: the body up to it is empty so far, and it cannot be divided again
        cases hrest with
        | closed n hafter =>
          rw [htop]
          exact .divided .nil n htop helse hafter
        | divided n other _ hno _ => cases hno
      · exact hrest.prepend [i] fun m => ⟨.plain i hplain m, rfl⟩

/-- **Accepted code is a tree written out.** -/
theorem exists_nested_of_checkNesting (h : checkNesting code = .ok ()) :
    ∃ n : Nested, n.flatten = code := by
  unfold checkNesting at h
  split at h
  · cases h
  · rename_i hfrom
    cases remainder_of_nestingFrom hfrom with
    | done n => exact ⟨n, rfl⟩
  · cases h

/-! ## Code without declarations -/

/-- A sequence of instructions and constructs, none of which declares a function or a macro. -/
inductive Body where
  | nil
  | plain (i : Instr) (isPlain : i.IsPlain) (rest : Body)
  | conditional (cond : Operand) (body rest : Body)
  | choice (cond : Operand) (body other rest : Body)
  | loop (cond : Operand) (body rest : Body)
  | block (body rest : Body)

variable {c b : Body}

namespace Body

/-- The sequence written out. -/
def flatten : Body → List Instr
  | .nil => []
  | .plain i _ rest => i :: rest.flatten
  | .conditional cond body rest => .ifBegin cond :: (body.flatten ++ .endIf :: rest.flatten)
  | .choice cond body other rest =>
    .ifBegin cond :: (body.flatten ++ .elseMark :: (other.flatten ++ .endIf :: rest.flatten))
  | .loop cond body rest => .whileBegin cond :: (body.flatten ++ .endWhile :: rest.flatten)
  | .block body rest => .blockStart :: (body.flatten ++ .blockEnd :: rest.flatten)

/-- The instructions in front end a sequence: none of them belongs to it. -/
def Ends (code : List Instr) : Prop :=
  ∀ i ∈ code.head?, ¬ i.IsPlain ∧ i.opens? = none

theorem ends_nil : Ends [] := by
  intro i hi
  cases hi

theorem ends_elseMark (code : List Instr) : Ends (.elseMark :: code) := by
  intro i hi
  cases hi
  exact ⟨fun h => h.2.2 rfl, rfl⟩

theorem ends_last (c : Construct) (code : List Instr) : Ends (c.last :: code) := by
  intro i hi
  cases hi
  cases c <;> exact ⟨fun h => (by cases h.2.1), rfl⟩

theorem eq_plain_of_flatten_append (ha : Ends after) (hi : i.IsPlain)
    (h : i :: code = c.flatten ++ after) :
    ∃ rest, c = .plain i hi rest ∧ code = rest.flatten ++ after := by
  cases c with
  | nil => exact absurd hi (ha i (by rw [← show i :: code = after from h]; rfl)).1
  | plain j hj rest =>
    obtain ⟨rfl, rfl⟩ := List.cons.inj h
    exact ⟨rest, rfl, rfl⟩
  | _ =>
    obtain ⟨rfl, -⟩ := List.cons.inj h
    cases hi.1

/-- A sequence that starts with a conditional. -/
theorem eq_of_flatten_append_ifBegin (ha : Ends after)
    (h : .ifBegin cond :: code = c.flatten ++ after) :
    (∃ body rest, c = .conditional cond body rest ∧
        code = body.flatten ++ .endIf :: (rest.flatten ++ after)) ∨
      ∃ body other rest, c = .choice cond body other rest ∧
        code = body.flatten ++
          .elseMark :: (other.flatten ++ .endIf :: (rest.flatten ++ after)) := by
  cases c with
  | nil => cases (ha (.ifBegin cond) (by rw [← show _ = after from h]; rfl)).2
  | plain j hj rest =>
    obtain ⟨rfl, -⟩ := List.cons.inj h
    cases hj.1
  | conditional cond' body rest =>
    obtain ⟨hcond, rfl⟩ := List.cons.inj h
    cases hcond
    exact .inl ⟨body, rest, rfl, by simp⟩
  | choice cond' body other rest =>
    obtain ⟨hcond, rfl⟩ := List.cons.inj h
    cases hcond
    exact .inr ⟨body, other, rest, rfl, by simp⟩
  | loop | block => cases h

/-- A sequence that starts with a loop. -/
theorem eq_of_flatten_append_whileBegin (ha : Ends after)
    (h : .whileBegin cond :: code = c.flatten ++ after) :
    ∃ body rest, c = .loop cond body rest ∧
      code = body.flatten ++ .endWhile :: (rest.flatten ++ after) := by
  cases c with
  | nil => cases (ha (.whileBegin cond) (by rw [← show _ = after from h]; rfl)).2
  | plain j hj rest =>
    obtain ⟨rfl, -⟩ := List.cons.inj h
    cases hj.1
  | loop cond' body rest =>
    obtain ⟨hcond, rfl⟩ := List.cons.inj h
    cases hcond
    exact ⟨body, rest, rfl, by simp⟩
  | conditional | choice | block => cases h

/-- A sequence that starts with a block. -/
theorem eq_of_flatten_append_blockStart (ha : Ends after)
    (h : .blockStart :: code = c.flatten ++ after) :
    ∃ body rest, c = .block body rest ∧
      code = body.flatten ++ .blockEnd :: (rest.flatten ++ after) := by
  cases c with
  | nil => cases (ha .blockStart (by rw [← show _ = after from h]; rfl)).2
  | plain j hj rest =>
    obtain ⟨rfl, -⟩ := List.cons.inj h
    cases hj.1
  | block body rest =>
    obtain ⟨-, rfl⟩ := List.cons.inj h
    exact ⟨body, rest, rfl, by simp⟩
  | conditional | choice | loop => cases h

/-- **No code comes from two trees**, also in front of a mark. -/
theorem flatten_append_inj {after' : List Instr} (ha : Ends after) (ha' : Ends after')
    (h : b.flatten ++ after = c.flatten ++ after') : b = c ∧ after = after' := by
  induction b generalizing c after after' with
  | nil =>
    -- the first instruction of another tree does not end a sequence
    cases c with
    | nil => exact ⟨rfl, h⟩
    | plain j hj rest => exact absurd hj (ha j (by rw [show after = _ from h]; rfl)).1
    | conditional cond _ _ | choice cond _ _ _ =>
      cases (ha (.ifBegin cond) (by rw [show after = _ from h]; rfl)).2
    | loop cond _ _ => cases (ha (.whileBegin cond) (by rw [show after = _ from h]; rfl)).2
    | block => cases (ha .blockStart (by rw [show after = _ from h]; rfl)).2
  | plain i hi rest ih =>
    obtain ⟨rest', rfl, hrest⟩ := eq_plain_of_flatten_append ha' hi h
    obtain ⟨rfl, rfl⟩ := ih ha ha' hrest
    exact ⟨rfl, rfl⟩
  | conditional cond body rest ihbody ihrest =>
    simp only [flatten, cons_append, append_assoc] at h
    rcases eq_of_flatten_append_ifBegin ha' h with
      ⟨body', rest', rfl, hcode⟩ | ⟨body', other', rest', rfl, hcode⟩
    · obtain ⟨rfl, hafter⟩ := ihbody (ends_last .conditional _) (ends_last .conditional _) hcode
      obtain ⟨rfl, rfl⟩ := ihrest ha ha' (List.cons.inj hafter).2
      exact ⟨rfl, rfl⟩
    · -- the bodies agree, so the marks behind them would too
      cases (ihbody (ends_last .conditional _) (ends_elseMark _) hcode).2
  | choice cond body other rest ihbody ihother ihrest =>
    simp only [flatten, cons_append, append_assoc] at h
    rcases eq_of_flatten_append_ifBegin ha' h with
      ⟨body', rest', rfl, hcode⟩ | ⟨body', other', rest', rfl, hcode⟩
    · cases (ihbody (ends_elseMark _) (ends_last .conditional _) hcode).2
    · obtain ⟨rfl, hother⟩ := ihbody (ends_elseMark _) (ends_elseMark _) hcode
      obtain ⟨rfl, hafter⟩ := ihother (ends_last .conditional _) (ends_last .conditional _)
        (List.cons.inj hother).2
      obtain ⟨rfl, rfl⟩ := ihrest ha ha' (List.cons.inj hafter).2
      exact ⟨rfl, rfl⟩
  | loop cond body rest ihbody ihrest =>
    simp only [flatten, cons_append, append_assoc] at h
    obtain ⟨body', rest', rfl, hcode⟩ := eq_of_flatten_append_whileBegin ha' h
    obtain ⟨rfl, hafter⟩ := ihbody (ends_last .loop _) (ends_last .loop _) hcode
    obtain ⟨rfl, rfl⟩ := ihrest ha ha' (List.cons.inj hafter).2
    exact ⟨rfl, rfl⟩
  | block body rest ihbody ihrest =>
    simp only [flatten, cons_append, append_assoc] at h
    obtain ⟨body', rest', rfl, hcode⟩ := eq_of_flatten_append_blockStart ha' h
    obtain ⟨rfl, hafter⟩ := ihbody (ends_last .block _) (ends_last .block _) hcode
    obtain ⟨rfl, rfl⟩ := ihrest ha ha' (List.cons.inj hafter).2
    exact ⟨rfl, rfl⟩

/-- **Trees with the same code are the same.** -/
theorem flatten_injective (h : b.flatten = c.flatten) : b = c :=
  (flatten_append_inj ends_nil ends_nil (by simpa using h)).1

end Body

end ImpMachine.Linear
