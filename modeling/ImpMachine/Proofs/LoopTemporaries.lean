import Mathlib.Data.Finset.Option
import ImpMachine.Proofs.Enclosing
import ImpMachine.Proofs.Lending

/-!
# Temporaries of loops

A loop whose condition is no variable keeps a temporary for its whole length. Lowering gives back
every other temporary with the instruction that took it. So in front of each instruction of a body
there are as many temporaries as at the start of the body and one more for each such loop around the
instruction, and at the end of the body they are those of its start (`temporaries_never_leak`).

Lowering does not count the `else` marks of a conditional, so the constructs of a body are paired
without looking at these marks (`Matched`). To have the loops around an instruction from the nesting
check all the same, its stack is followed on the body with plain instructions in their place.
-/

namespace ImpMachine

open Assembly Linear RegisterMap List

variable {cond : Operand} {constructs : List OpenConstruct}
variable {i : Instr} {index : Nat} {b b' : Bindings} {m m' : RegisterMap} {entry : Finset Register}
variable {code : List Instr} {table : FunctionTable} {s s' : Progress}

namespace Linear

/-! ## Loops around an instruction -/

/-- All constructs that are opened are closed, in order, whatever `else` marks there are. -/
inductive Matched : List Instr → Prop where
  | nil : Matched []
  | cons {i : Instr} {rest : List Instr} (hopens : i.opens? = none) (hcloses : i.closes? = none)
      (hrest : Matched rest) : Matched (i :: rest)
  | enclosed (opener : Opener) {body rest : List Instr} (hbody : Matched body)
      (hrest : Matched rest) : Matched (opener.first :: (body ++ opener.construct.last :: rest))

/-- The instruction opens a loop whose condition is no variable. -/
def Instr.ComputesTest (i : Instr) : Prop :=
  ∃ cond, i = .whileBegin cond ∧ ∀ name, cond ≠ .var name

/-- The index lies behind the opening mark of the loop that begins at `first`, up to its end mark,
and the loop's condition is no variable. -/
def ComputedLoopAround (code : List Instr) (first index : Nat) : Prop :=
  ∃ (front inner back : List Instr) (i : Instr),
    code = front ++ i :: (inner ++ .endWhile :: back) ∧ i.ComputesTest ∧ Matched inner ∧
      front.length = first ∧ first < index ∧ index ≤ first + inner.length + 1

open Classical in
/-- Where the loops around the index begin whose condition is no variable. -/
noncomputable def computedLoopsAround (code : List Instr) (index : Nat) : Finset Nat :=
  (Finset.range index).filter fun first => ComputedLoopAround code first index

/-! ## Without `else` marks -/

/-- The instruction, or a plain one in place of an `else` mark. -/
def Instr.withoutElse : Instr → Instr
  | .elseMark => .expr (.int 0)
  | i => i

namespace Instr

@[simp] theorem opens?_withoutElse (i : Instr) : i.withoutElse.opens? = i.opens? := by
  cases i <;> rfl

@[simp] theorem closes?_withoutElse (i : Instr) : i.withoutElse.closes? = i.closes? := by
  cases i <;> rfl

theorem withoutElse_ne (i : Instr) : i.withoutElse ≠ .elseMark := by
  cases i <;> simp [withoutElse]

theorem withoutElse_first (opener : Opener) : opener.first.withoutElse = opener.first := by
  cases opener <;> rfl

theorem withoutElse_last (construct : Construct) : construct.last.withoutElse = construct.last := by
  cases construct <;> rfl

@[simp] theorem opens?_first (opener : Opener) : opener.first.opens? = some opener.construct := by
  cases opener <;> rfl

@[simp] theorem closes?_last (construct : Construct) : construct.last.closes? = some construct := by
  cases construct <;> rfl

/-- Marks of constructs are left as they are. -/
theorem eq_of_withoutElse {j : Instr} (h : i.withoutElse = j)
    (hmark : j.opens? ≠ none ∨ j.closes? ≠ none) : i = j := by
  subst h
  cases i with
  | elseMark => simp [opens?, closes?, withoutElse] at hmark
  | _ => rfl

end Instr

/-- Matched code without its else marks is well nested. -/
theorem Matched.wellNested (h : Matched code) : WellNested (code.map Instr.withoutElse) := by
  induction h with
  | nil => exact ⟨.nil, rfl⟩
  | @cons i rest hopens hcloses _ ih =>
    obtain ⟨n, hn⟩ := ih
    have hplain : i.withoutElse.IsPlain := ⟨by simpa using hopens, by simpa using hcloses,
      i.withoutElse_ne⟩
    exact ⟨.plain _ hplain n, by simp [Nested.flatten, hn]⟩
  | enclosed opener _ _ ihbody ihrest =>
    obtain ⟨n, hn⟩ := ihbody
    obtain ⟨n', hn'⟩ := ihrest
    refine ⟨.enclosed opener n n', ?_⟩
    simp [Nested.flatten, hn, hn', Instr.withoutElse_first, Instr.withoutElse_last]

/-- The code of a tree is matched. -/
theorem Matched.of_flatten {n : Nested} (h : code.map Instr.withoutElse = n.flatten) :
    Matched code := by
  induction n generalizing code with
  | nil =>
    rw [map_eq_nil_iff.1 h]
    exact .nil
  | plain i hi rest ih =>
    obtain ⟨j, code, rfl, rfl, hcode⟩ := map_eq_cons_iff.1 h
    exact .cons (by simpa using hi.1) (by simpa using hi.2.1) (ih hcode)
  | enclosed opener body rest ihbody ihrest =>
    obtain ⟨first, tail, rfl, hfirst, htail⟩ := map_eq_cons_iff.1 h
    obtain ⟨inner, tail, rfl, hinner, hback⟩ := map_eq_append_iff.1 htail
    obtain ⟨last, back, rfl, hlast, hrest⟩ := map_eq_cons_iff.1 hback
    obtain rfl := Instr.eq_of_withoutElse hfirst (.inl (by simp))
    obtain rfl := Instr.eq_of_withoutElse hlast (.inr (by simp))
    exact .enclosed opener (ihbody hinner) (ihrest hrest)
  | choice cond body other rest =>
    -- there is an `else` mark on the right only
    have hmem : Instr.elseMark ∈ code.map Instr.withoutElse := by simp [h, Nested.flatten]
    obtain ⟨i, -, hi⟩ := mem_map.1 hmem
    exact absurd hi i.withoutElse_ne

/-- The loops around an index are found without `else` marks. -/
theorem computedLoopAround_iff {first : Nat} :
    ComputedLoopAround code first index ↔
      Within (code.map Instr.withoutElse) .loop first index ∧ first < index ∧
        ∃ i, code[first]? = some i ∧ i.ComputesTest := by
  constructor
  · rintro ⟨front, inner, back, _, rfl, ⟨cond, rfl, hcond⟩, hinner, rfl, hlt, hle⟩
    refine ⟨⟨front.map Instr.withoutElse, inner.map Instr.withoutElse, back.map Instr.withoutElse,
      .loop cond, ?_, rfl, hinner.wellNested, length_map _, Nat.le_of_lt hlt,
      by simpa using hle⟩, hlt, _, by simp, cond, rfl, hcond⟩
    simp [Opener.first, Opener.construct, Construct.last, Instr.withoutElse]
  · rintro ⟨⟨front, inner, back, opener, hcode, hopener, ⟨n, hn⟩, rfl, -, hle⟩, hlt, i, hi, htest⟩
    obtain ⟨front, tail, rfl, rfl, htail⟩ := map_eq_append_iff.1 hcode
    obtain ⟨first, tail, rfl, -, hinner⟩ := map_eq_cons_iff.1 htail
    obtain ⟨inner, tail, rfl, rfl, hback⟩ := map_eq_append_iff.1 hinner
    obtain ⟨last, back, rfl, hlast, -⟩ := map_eq_cons_iff.1 hback
    rw [hopener] at hlast
    obtain rfl := Instr.eq_of_withoutElse hlast (.inr (by simp))
    obtain rfl : first = i := by simpa using hi
    exact ⟨front, inner, back, first, rfl, htest, .of_flatten hn.symm, (length_map _).symm,
      hlt, by simpa using hle⟩

end Linear

/-! ## Temporaries of one instruction -/

namespace RegisterMap

theorem temporaries_releaseAll (m : RegisterMap) (ts : List Register) :
    (m.releaseAll (ts.map Fin.val)).temporaries = m.temporaries \ ts.toFinset := by
  ext r
  simp only [Finset.mem_sdiff, mem_temporaries, mem_toFinset]
  by_cases hr : r ∈ ts ∧ m.holder r = some .temporary
  · simp [holder_releaseAll_of_mem hr.1 hr.2, hr.1]
  · rw [holder_releaseAll_of_not hr]
    exact ⟨fun h => ⟨h, fun hmem => hr ⟨hmem, h⟩⟩, And.left⟩

/-- The end of a block frees names only. -/
theorem temporaries_popScope (m : RegisterMap) : m.popScope.temporaries = m.temporaries := by
  unfold popScope
  split
  · rfl
  · rename_i frame outer _
    ext r
    rw [mem_temporaries, mem_temporaries]
    rcases holder_foldl_unbind frame { m with frames := outer } r with hkept | ⟨⟨x, -, hx⟩, hnone⟩
    · rw [hkept]
      rfl
    · have hx : m.holder r = some (.named x) := hx
      simp [hnone, hx]

end RegisterMap

section Drafting

variable {ts : List Register}

/-- A request of drafting lends what it lends by itself. -/
theorem leaves_request {α : Type} {x : Allocation α} {u : α → List Register}
    (h : Lending ts x u) : Leaves Bindings.registers ts (request x) u := by
  intro start b a b' hstart ha
  obtain ⟨m, hm, rfl⟩ := request_eq_ok ha
  exact h start b.registers a m hstart hm

theorem leaves_environmentOf : Leaves Bindings.registers ts (environmentOf table) fun _ => ts := by
  rintro start b a b' hstart ⟨⟩
  exact hstart

theorem leaves_own (name : String) : Leaves Bindings.registers ts (own name) fun _ => ts := by
  rintro start b a b' hstart ⟨⟩
  exact hstart

theorem leaves_draftAssign (name : String) (value : Operand) :
    Leaves Bindings.registers ts (draftAssign table name value) fun _ => ts :=
  leaves_environmentOf.bind fun env => (leaves_request (lending_bind _)).bind fun b =>
    leaves_request (settles_load env value b.register).of_closed

theorem leaves_draftTest (cond : Operand) :
    Leaves Bindings.registers [] (draftTest table cond) fun _ => [] :=
  leaves_environmentOf.bind fun env =>
    (leaves_request (lending_fetchRegister cond (settles_load env cond))).bind fun _ =>
      (leaves_request lending_release).bind fun _ => .pure rfl

/-- A plain instruction leaves no temporary. -/
theorem leaves_draftPlain (i : Instr) :
    Leaves Bindings.registers [] (draftPlain table i) fun _ => [] := by
  unfold draftPlain
  split
  · exact (leaves_own _).bind fun _ => leaves_draftAssign _ _
  · exact leaves_draftAssign _ _
  · exact (leaves_draftTest _).bind fun _ => .pure rfl
  · exact leaves_environmentOf.bind fun env =>
      leaves_request (lending_callCode _ (settles_loads env _))
  · exact leaves_environmentOf.bind fun env =>
      leaves_request (lending_callCode _ (settles_loads env _))
  · exact leaves_environmentOf.bind fun env =>
      (leaves_request (lending_viaTemporary (u := (·.temporaries)) (settles_load env _)
        fun _ _ => rfl)).bind fun _ => (leaves_request lending_release).bind fun _ => .pure rfl
  · exact leaves_environmentOf.bind fun env => (leaves_request (lending_bindGlobal _)).bind fun b =>
      (leaves_request (settles_load env _ b.register)).bind fun _ => .pure rfl
  · exact .pure rfl

/-- The temporary of the test of a loop. -/
def Assembly.LoopTest.pinned : LoopTest → Option Register
  | .variable _ => none
  | .computed r _ => some r

/-- A loop over a variable takes no temporary, any other loop takes one. -/
theorem leaves_draftLoopTest (cond : Operand) :
    Leaves Bindings.registers [] (draftLoopTest table cond) fun r => r.2.pinned.toList := by
  unfold draftLoopTest
  refine leaves_environmentOf.bind fun env => ?_
  split
  · exact (leaves_request (lending_readVariable _)).bind fun _ => .pure rfl
  · exact (leaves_request (lending_viaTemporary (u := fun f => [f.place]) (settles_load env _)
      fun _ _ => rfl)).bind fun _ => .pure rfl

/-- A loop pins a register if its test is computed. -/
theorem pinned_of_draftLoopTest {r : List Piece × LoopTest}
    (h : draftLoopTest table cond b = .ok (r, b')) :
    r.2.pinned.isSome ↔ (Instr.whileBegin cond).ComputesTest := by
  obtain ⟨_, _, ⟨⟩, h⟩ := run_bind_eq_ok.1 h
  cases cond with
  | var name | _ =>
    obtain ⟨_, _, -, ⟨⟩⟩ := run_bind_eq_ok.1 h
    simp [LoopTest.pinned, Instr.ComputesTest]

theorem leaves_draftRepeat (test : LoopTest) :
    Leaves Bindings.registers [] (draftRepeat table test) fun _ => [] := by
  rcases test with r | ⟨r, cond⟩
  · exact .pure rfl
  · exact leaves_environmentOf.bind fun env => leaves_request (settles_load env cond r)

theorem temporaries_of_draftEndTest {test : LoopTest} (h : draftEndTest test b = .ok ((), b')) :
    b'.registers.temporaries = b.registers.temporaries \ test.pinned.toFinset := by
  rcases test with r | ⟨r, cond⟩
  · cases h
    simp [LoopTest.pinned]
  · cases h
    exact b.registers.temporaries_releaseAll [r]

end Drafting

/-! ## One instruction -/

namespace Assembly.OpenConstruct

/-- The construct as the nesting check has it. -/
def kind : OpenConstruct → Construct
  | .conditional _ => .conditional
  | .loop .. => .loop
  | .block => .block

/-- The temporary that is kept for the length of the construct. -/
def pinned : OpenConstruct → Option Register
  | .loop _ test => test.pinned
  | _ => none

end Assembly.OpenConstruct

/-- The temporaries of a state of lowering. -/
abbrev Assembly.Progress.temporaries (s : Progress) : Finset Register := s.registers.temporaries

/-- What an instruction does to the open constructs and the temporaries: it leaves both, opens a
construct and takes its temporary, or closes the innermost one and gives its temporary back. -/
inductive Handles (i : Instr) (s s' : Progress) : Prop where
  | plain (hopens : i.opens? = none) (hcloses : i.closes? = none)
      (hconstructs : s'.constructs = s.constructs) (htemporaries : s'.temporaries = s.temporaries)
  | opens (construct : OpenConstruct) (hopens : i.opens? = some construct.kind)
      (htest : construct.pinned.isSome ↔ i.ComputesTest)
      (hconstructs : s'.constructs = construct :: s.constructs)
      (hfree : Disjoint s.temporaries construct.pinned.toFinset)
      (htemporaries : s'.temporaries = s.temporaries ∪ construct.pinned.toFinset)
  | closes (construct : OpenConstruct) (hcloses : i.closes? = some construct.kind)
      (hconstructs : s.constructs = construct :: s'.constructs)
      (htemporaries : s'.temporaries = s.temporaries \ construct.pinned.toFinset)

namespace Handles

variable (construct : OpenConstruct)

/-- A construct without a temporary is opened. -/
theorem opens_bare (hpinned : construct.pinned = none) (hopens : i.opens? = some construct.kind)
    (htest : ¬i.ComputesTest) (hconstructs : s'.constructs = construct :: s.constructs)
    (htemporaries : s'.temporaries = s.temporaries) : Handles i s s' :=
  .opens construct hopens (by simp [hpinned, htest]) hconstructs (by simp [hpinned])
    (by simp [hpinned, htemporaries])

/-- A construct without a temporary is closed. -/
theorem closes_bare (hpinned : construct.pinned = none) (hcloses : i.closes? = some construct.kind)
    (hconstructs : s.constructs = construct :: s'.constructs)
    (htemporaries : s'.temporaries = s.temporaries) : Handles i s s' :=
  .closes construct hcloses hconstructs (by simp [hpinned, htemporaries])

end Handles

section Lowering

theorem temporaries_of_lends (h : Lends [] m m') : m'.temporaries = m.temporaries :=
  h.settled.temporaries

theorem handles_plain (hi : i.IsPlain) (h : lowerInstr table index i s = .ok ((), s')) :
    Handles i s s' := by
  rw [show s = .of s.buffer ⟨s.registers, s.scope⟩ s.constructs from rfl,
    writes_plain table index hi] at h
  obtain ⟨r, hr, h⟩ := map_eq_ok.1 h
  cases h
  exact .plain hi.1 hi.2.1 rfl (temporaries_of_lends ((leaves_draftPlain i).lends hr))

theorem handles_ifBegin (h : lowerInstr table index (.ifBegin cond) s = .ok ((), s')) :
    Handles (.ifBegin cond) s s' := by
  rw [show s = .of s.buffer ⟨s.registers, s.scope⟩ s.constructs from rfl, lowerInstr_ifBegin] at h
  obtain ⟨r, hr, h⟩ := map_eq_ok.1 h
  cases h
  exact .opens_bare (.conditional _) rfl rfl (by simp [Instr.ComputesTest]) rfl
    (temporaries_of_lends ((leaves_draftTest cond).lends hr))

theorem handles_whileBegin (h : lowerInstr table index (.whileBegin cond) s = .ok ((), s')) :
    Handles (.whileBegin cond) s s' := by
  rw [show s = .of s.buffer ⟨s.registers, s.scope⟩ s.constructs from rfl, lowerInstr_whileBegin]
    at h
  obtain ⟨r, hr, h⟩ := map_eq_ok.1 h
  cases h
  have hlends := (leaves_draftLoopTest cond).lends hr
  have hpinned : r.1.2.pinned.toList.toFinset = r.1.2.pinned.toFinset := by
    cases r.1.2.pinned <;> rfl
  refine .opens (.loop _ r.1.2) rfl (pinned_of_draftLoopTest hr) rfl ?_ ?_
  · -- the temporary was free when the loop took it
    refine Finset.disjoint_left.2 fun t ht hmem => ?_
    have hfree : s.registers.holder t = none :=
      hlends.free t (Option.mem_toList.2 (Option.mem_toFinset.1 hmem))
    rw [mem_temporaries, hfree] at ht
    cases ht
  · exact hlends.temporaries.trans (congrArg (_ ∪ ·) hpinned)

theorem handles_elseMark (h : lowerInstr table index .elseMark s = .ok ((), s')) :
    Handles .elseMark s s' := by
  rcases s with ⟨buffer, registers, scope, _ | ⟨_ | _ | _, outer⟩⟩ <;> cases h
  exact .plain rfl rfl rfl rfl

theorem handles_endIf (h : lowerInstr table index .endIf s = .ok ((), s')) :
    Handles .endIf s s' := by
  rcases s with ⟨buffer, registers, scope, _ | ⟨_ | _ | _, outer⟩⟩ <;> cases h
  exact .closes_bare (.conditional _) rfl rfl rfl rfl

theorem handles_endWhile (h : lowerInstr table index .endWhile s = .ok ((), s')) :
    Handles .endWhile s s' := by
  rcases s with ⟨buffer, registers, scope, _ | ⟨_ | ⟨block, test⟩ | _, outer⟩⟩
  · cases h
  · cases h
  · rw [show (⟨buffer, registers, scope, .loop block test :: outer⟩ : Progress) =
      .of buffer ⟨registers, scope⟩ (.loop block test :: outer) from rfl, lowerInstr_endWhile] at h
    obtain ⟨r, hr, h⟩ := bind_eq_ok.1 h
    obtain ⟨r', hr', h⟩ := map_eq_ok.1 h
    cases h
    refine .closes (.loop block test) rfl rfl ?_
    have hagain := temporaries_of_lends ((leaves_draftRepeat test).lends hr)
    exact (temporaries_of_draftEndTest hr').trans (congrArg (· \ _) hagain)
  · cases h

theorem handles_blockEnd (h : lowerInstr table index .blockEnd s = .ok ((), s')) :
    Handles .blockEnd s s' := by
  rcases s with ⟨buffer, registers, scope, _ | ⟨_ | _ | _, outer⟩⟩ <;> cases h
  exact .closes_bare .block rfl rfl rfl (temporaries_popScope registers)

/-- **One instruction** handles constructs and temporaries together. -/
theorem handles_lowerInstr (h : lowerInstr table index i s = .ok ((), s')) : Handles i s s' := by
  cases i with
  | ifBegin => exact handles_ifBegin h
  | whileBegin => exact handles_whileBegin h
  | blockStart =>
    cases h
    exact .opens_bare .block rfl rfl (by simp [Instr.ComputesTest]) rfl rfl
  | elseMark => exact handles_elseMark h
  | endIf => exact handles_endIf h
  | endWhile => exact handles_endWhile h
  | blockEnd => exact handles_blockEnd h
  | funcDecl | endFunc | macroDecl | endMacro => cases h
  | _ => exact handles_plain ⟨rfl, rfl, by simp⟩ h

end Lowering

/-! ## Bodies -/

/-- The temporaries are some given ones and one more for each construct that keeps one. -/
inductive Pins (entry : Finset Register) : List OpenConstruct → Finset Register → Prop where
  | nil : Pins entry [] entry
  | cons (construct : OpenConstruct) {outer : List OpenConstruct} {ts : Finset Register}
      (houter : Pins entry outer ts) (hfree : Disjoint ts construct.pinned.toFinset) :
      Pins entry (construct :: outer) (ts ∪ construct.pinned.toFinset)

/-- A temporary for each open loop that pins one. -/
theorem Pins.card {ts : Finset Register} (h : Pins entry constructs ts) :
    ts.card = entry.card + constructs.countP (·.pinned.isSome) := by
  induction h with
  | nil => rfl
  | cons construct _ hfree ih =>
    rw [Finset.card_union_of_disjoint hfree, ih, countP_cons, Option.card_toFinset,
      Nat.add_assoc]
    cases construct.pinned <;> rfl

/-- A construct of the nesting check is one of lowering, with a temporary if it is a loop with a
computed test. -/
structure Mirrors (code : List Instr) (o : Opened) (construct : OpenConstruct) : Prop where
  kind : o.construct = construct.kind
  pinned : construct.pinned.isSome ↔ ∃ i, code[o.index]? = some i ∧ i.ComputesTest

/-- The nesting check without `else` marks and lowering have gone over the first instructions: they
have the same constructs open, whose temporaries are there beside those at the start. -/
structure Tracks (entry : Finset Register) (code front : List Instr) (stack : List Opened)
    (s : Progress) : Prop where
  nesting : nestingFrom 0 [] (front.map Instr.withoutElse) = .ok stack
  mirrors : List.Forall₂ (Mirrors code) stack s.constructs
  pins : Pins entry s.constructs s.temporaries

section Bodies

variable {front rest : List Instr} {stack : List Opened}

/-- One instruction keeps them together. -/
theorem Tracks.step (h : Tracks entry code front stack s) (hi : code[front.length]? = some i)
    (hstep : lowerInstr table index i s = .ok ((), s')) :
    ∃ stack', Tracks entry code (front ++ [i]) stack' s' := by
  have hnesting {stack' : List Opened}
      (hnext : nestingStep front.length stack i.withoutElse = .ok stack') :
      nestingFrom 0 [] ((front ++ [i]).map Instr.withoutElse) = .ok stack' := by
    rw [map_append, nestingFrom_append h.nesting, length_map, Nat.zero_add, map_cons,
      nestingFrom_cons hnext]
    rfl
  cases handles_lowerInstr hstep with
  | plain hopens hcloses hconstructs htemporaries =>
    have hplain : i.withoutElse.IsPlain :=
      ⟨by simpa using hopens, by simpa using hcloses, i.withoutElse_ne⟩
    refine ⟨stack, hnesting (nestingStep_of_isPlain hplain), ?_, ?_⟩
    · rw [hconstructs]
      exact h.mirrors
    · rw [hconstructs, htemporaries]
      exact h.pins
  | opens construct hopens htest hconstructs hfree htemporaries =>
    obtain ⟨opener, rfl, hopener⟩ := exists_opener_of_opens? hopens
    refine ⟨⟨front.length, opener.construct, false⟩ :: stack,
      hnesting (by rw [Instr.withoutElse_first, nestingStep_first]), ?_, ?_⟩
    · rw [hconstructs]
      refine .cons ⟨hopener, htest.trans ?_⟩ h.mirrors
      simp [hi]
    · rw [hconstructs, htemporaries]
      exact h.pins.cons construct hfree
  | closes construct hcloses hconstructs htemporaries =>
    have hmirrors := h.mirrors
    have hpins := h.pins
    rw [hconstructs] at hmirrors hpins
    obtain rfl := eq_last_of_closes? hcloses
    cases hmirrors with
    | @cons top _ outer _ htop hmirrors =>
      refine ⟨outer, hnesting ?_, hmirrors, ?_⟩
      · rw [Instr.withoutElse_last, ← htop.kind, nestingStep_last]
      · rw [htemporaries]
        generalize s.temporaries = ts at hpins ⊢
        cases hpins with
        | cons _ houter hfree =>
          rw [Finset.union_sdiff_cancel_right hfree]
          exact houter

/-- What was lowered in one go was lowered in two. -/
theorem lowerFrom_append_eq_ok (h : lowerFrom table index (front ++ rest) s = .ok ((), s')) :
    ∃ before, lowerFrom table index front s = .ok ((), before) ∧
      lowerFrom table (index + front.length) rest before = .ok ((), s') := by
  induction front generalizing index s with
  | nil => exact ⟨s, rfl, h⟩
  | cons i front ih =>
    obtain ⟨⟨⟩, s₁, hi, h⟩ := run_bind_eq_ok.1 h
    obtain ⟨before, hfront, hrest⟩ := ih h
    refine ⟨before, run_bind_eq_ok.2 ⟨(), s₁, hi, hfront⟩, ?_⟩
    rwa [length_cons, Nat.add_comm front.length, ← Nat.add_assoc]

/-- **A stretch of instructions keeps them together.** -/
theorem Tracks.run (h : Tracks entry code front stack s) (hcode : front ++ rest <+: code)
    (hrun : lowerFrom table front.length rest s = .ok ((), s')) :
    ∃ stack', Tracks entry code (front ++ rest) stack' s' := by
  induction rest generalizing front stack s with
  | nil =>
    cases hrun
    rw [append_nil]
    exact ⟨stack, h⟩
  | cons i rest ih =>
    have hi : code[front.length]? = some i := by
      obtain ⟨back, rfl⟩ := hcode
      simp
    obtain ⟨⟨⟩, s₁, hstep, hrun⟩ := run_bind_eq_ok.1 hrun
    obtain ⟨stack₁, h₁⟩ := h.step hi hstep
    rw [append_cons] at hcode ⊢
    exact ih h₁ hcode (by simpa using hrun)

/-- The constructs that keep a temporary are the loops with a computed test. -/
theorem countP_eq_of_mirrors {p : Opened → Bool}
    (hp : ∀ o, p o = true ↔ o.construct = .loop ∧ ∃ i, code[o.index]? = some i ∧ i.ComputesTest)
    (h : List.Forall₂ (Mirrors code) stack constructs) :
    stack.countP p = constructs.countP (·.pinned.isSome) := by
  induction h with
  | nil => rfl
  | @cons o construct _ _ hmirrors _ ih =>
    have hloop : construct.pinned.isSome → o.construct = .loop := by
      intro hpinned
      rw [hmirrors.kind]
      cases construct with
      | loop => rfl
      | _ => cases hpinned
    have htop : p o = construct.pinned.isSome := by
      rw [Bool.eq_iff_iff, hp, ← hmirrors.pinned]
      exact ⟨And.right, fun hpinned => ⟨hloop hpinned, hpinned⟩⟩
    rw [countP_cons, countP_cons, ih, htop]

/-- **The loops around an instruction** are those of the open constructs. -/
theorem Tracks.card_computedLoopsAround (h : Tracks entry code front stack s)
    (hcode : code = front ++ i :: rest) (hnested : WellNested (code.map Instr.withoutElse)) :
    (computedLoopsAround code front.length).card = s.constructs.countP (·.pinned.isSome) := by
  classical
  let p (o : Opened) : Bool :=
    o.construct = .loop ∧ ∃ i, code[o.index]? = some i ∧ i.ComputesTest
  have hsorted := (Pending.of_nestingFrom h.nesting).index_lt
  -- the loops around an instruction are those still open there, and no two open at one index
  have hloops : computedLoopsAround code front.length =
      ((stack.filter p).map (·.index)).toFinset := by
    ext first
    have hwithin : first < front.length →
        (Within (code.map Instr.withoutElse) .loop first front.length ↔
          ∃ o ∈ stack, o.construct = .loop ∧ o.index = first) := by
      intro hlt
      have hne : first ≠ (front.map Instr.withoutElse).length := by
        rw [length_map]
        exact Nat.ne_of_lt hlt
      subst hcode
      rw [map_append, map_cons] at hnested ⊢
      have hiff := within_iff hnested h.nesting (by decide : Construct.loop ≠ .conditional) first
      rw [length_map] at hiff
      rw [hiff]
      simp only [length_map] at hne
      simp [hne]
    simp only [computedLoopsAround, Finset.mem_filter, Finset.mem_range, mem_toFinset,
      mem_map, mem_filter, computedLoopAround_iff]
    constructor
    · rintro ⟨hlt, hloop, -, htest⟩
      obtain ⟨o, ho, hkind, rfl⟩ := (hwithin hlt).1 hloop
      exact ⟨o, ⟨ho, by simpa [p] using ⟨hkind, htest⟩⟩, rfl⟩
    · rintro ⟨o, ⟨ho, hp⟩, rfl⟩
      have hp : o.construct = .loop ∧ ∃ i, code[o.index]? = some i ∧ i.ComputesTest := by
        simpa [p] using hp
      have hlt : o.index < front.length := by simpa using hsorted.1 o ho
      exact ⟨hlt, (hwithin hlt).2 ⟨o, ho, hp.1, rfl⟩, hlt, hp.2⟩
  have hnodup : ((stack.filter p).map (·.index)).Nodup := by
    refine pairwise_map.2 ((hsorted.2.filter p).imp fun hlt => ?_)
    exact Nat.ne_of_gt hlt
  rw [hloops, toFinset_card_of_nodup hnodup, length_map, ← countP_eq_length_filter]
  exact countP_eq_of_mirrors (by simp [p]) h.mirrors

/-- Lowering a body lowers its instructions and leaves no construct open. -/
theorem lowerBody_eq_ok {body : List Instr} (h : lowerBody table body s = .ok ((), s')) :
    lowerFrom table 0 body { s with constructs := [] } = .ok ((), s') ∧ s'.constructs = [] := by
  obtain ⟨_, _, ⟨⟩, h⟩ := run_bind_eq_ok.1 h
  obtain ⟨⟨⟩, s₁, hbody, h⟩ := run_bind_eq_ok.1 h
  obtain ⟨_, _, ⟨⟩, h⟩ := run_bind_eq_ok.1 h
  cases hconstructs : s₁.constructs with
  | nil =>
    rw [hconstructs] at h
    cases h
    exact ⟨hbody, hconstructs⟩
  | cons =>
    rw [hconstructs] at h
    cases h

theorem Tracks.start (code : List Instr) (s : Progress) :
    Tracks s.temporaries code [] [] { s with constructs := [] } :=
  ⟨rfl, .nil, .nil⟩

/-- **Lowering tracks the constructs to the end of the code.** -/
theorem Tracks.of_lowerBody (h : lowerBody table code s = .ok ((), s')) :
    Tracks s.temporaries code code [] s' := by
  obtain ⟨hrun, hclosed⟩ := lowerBody_eq_ok h
  obtain ⟨stack, hend⟩ := (Tracks.start code s).run prefix_rfl hrun
  have hmirrors := hend.mirrors
  rw [hclosed] at hmirrors
  cases hmirrors
  exact hend

theorem temporaries_of_lowerBody (h : lowerBody table code s = .ok ((), s')) :
    s'.temporaries = s.temporaries := by
  have hpins := (Tracks.of_lowerBody h).pins
  rw [(lowerBody_eq_ok h).2] at hpins
  generalize s'.temporaries = ts at hpins ⊢
  cases hpins
  rfl

/-- The temporaries in front of an instruction are those of the loops around it. -/
theorem card_temporaries_before (h : lowerBody table code s = .ok ((), s'))
    (hindex : index < code.length) :
    ∃ before, lowerFrom table 0 (code.take index) { s with constructs := [] } = .ok ((), before) ∧
      lowerFrom table index (code.drop index) before = .ok ((), s') ∧
      before.temporaries.card = s.temporaries.card + (computedLoopsAround code index).card := by
  have hrun := (lowerBody_eq_ok h).1
  rw [← take_append_drop index code] at hrun
  obtain ⟨before, hfront, hrest⟩ := lowerFrom_append_eq_ok hrun
  have hlength : (code.take index).length = index := length_take_of_le (Nat.le_of_lt hindex)
  have hnested : WellNested (code.map Instr.withoutElse) :=
    wellNested_iff.2 (checkNesting_eq_ok_iff.2 (Tracks.of_lowerBody h).nesting)
  have hsplit : code = code.take index ++ code[index] :: code.drop (index + 1) := by
    rw [← drop_eq_getElem_cons hindex, take_append_drop]
  obtain ⟨stack, hbefore⟩ := (Tracks.start code s).run (List.take_prefix index code) hfront
  have hloops := hbefore.card_computedLoopsAround hsplit hnested
  rw [Nat.zero_add, hlength] at hrest
  rw [nil_append, hlength] at hloops
  exact ⟨before, hfront, hrest, by rw [hbefore.pins.card, hloops]⟩

end Bodies

/-! ## No leaks -/

/-- **Temporaries never leak.** Loading an operand, fetching it and releasing what was fetched, and
a call leave the temporaries as they were, keep every name in its register and only give free
registers to names. In front of each instruction of a body that is lowered there are the temporaries
from before the body and one more for each loop around the instruction whose condition is no
variable, and behind the body there are those from before. -/
theorem temporaries_never_leak :
    (∀ (env : Environment) (m m' : RegisterMap),
      (∀ (e : Operand) (dst : Register) (code : List Piece),
        load env e dst m = .ok (code, m') → Settled m m') ∧
      (∀ e : Operand, (do release (← fetch env e (load env e)).temporaries : Allocation Unit) m =
        .ok ((), m') → Settled m m') ∧
      (∀ e : Operand, (do release (← fetchRegister env e (load env e)).temporaries :
        Allocation Unit) m = .ok ((), m') → Settled m m') ∧
      ∀ (callee : String) (args : List Operand) (code : List Piece),
        callCode env callee (loads env args) m = .ok (code, m') → Settled m m') ∧
    ∀ (table : FunctionTable) (body : List Instr) (s s' : Progress),
      lowerBody table body s = .ok ((), s') →
      (∀ index < body.length, ∃ before,
        lowerFrom table 0 (body.take index) { s with constructs := [] } = .ok ((), before) ∧
        lowerFrom table index (body.drop index) before = .ok ((), s') ∧
        before.registers.temporaries.card =
          s.registers.temporaries.card + (computedLoopsAround body index).card) ∧
      s'.registers.temporaries = s.registers.temporaries := by
  refine ⟨fun env m m' => ⟨fun e dst code h => ?_, fun e h => ?_, fun e h => ?_,
    fun callee args code h => ?_⟩, fun table body s s' h => ?_⟩
  · exact ((settles_load env e dst).lends h).settled
  · exact ((lending_fetch e (settles_load env e)).bind fun _ => lending_release).lends h |>.settled
  · exact ((lending_fetchRegister e (settles_load env e)).bind fun _ =>
      lending_release).lends h |>.settled
  · exact ((lending_callCode callee (settles_loads env args)).lends h).settled
  · exact ⟨fun index hindex => card_temporaries_before h hindex, temporaries_of_lowerBody h⟩

/-- A function with one parameter whose address is not known. -/
def oneFunction : FunctionTable := ⟨[("f", ["a"])], []⟩

def lastRegister : Register := Fin.last 7

/-- A remainder by the result of a call. -/
def remainderByCall : Operand := .binary .mod (.var "x") (.call "f" [.var "x"])

/-- Loops over a comparison, a variable and a negation, the inner two in a conditional with two
`else` marks. -/
def pinnedLoops : List Instr :=
  [.declare "x" (.int 3), .whileBegin (.binary .lt (.int 0) (.var "x")), .ifBegin (.var "x"),
    .elseMark, .elseMark, .whileBegin (.var "x"), .whileBegin (.unary .not (.var "x")),
    .print remainderByCall, .endWhile, .endWhile, .endIf, .endWhile]

/-- Loading from a map that has a temporary, and a body in which two of the three loops around an
instruction keep one. -/
theorem temporaries_never_leak_pinnedLoops :
    (∃ code m', load ⟨oneFunction, none⟩ remainderByCall lastRegister
        (empty.take lastRegister .temporary) = .ok (code, m') ∧ m'.temporaries = {lastRegister}) ∧
      ∃ s' before, lowerBody oneFunction pinnedLoops .start = .ok ((), s') ∧
        lowerFrom oneFunction 0 (pinnedLoops.take 7) .start = .ok ((), before) ∧
        before.temporaries.card = 2 ∧ (computedLoopsAround pinnedLoops 7).card = 2 ∧
        s'.temporaries = ∅ := by
  obtain ⟨hoperands, hbodies⟩ := temporaries_never_leak
  refine ⟨?_, ?_⟩
  · have hok : (load ⟨oneFunction, none⟩ remainderByCall lastRegister
        (empty.take lastRegister .temporary)).isOk := by decide +kernel
    cases hload : load ⟨oneFunction, none⟩ remainderByCall lastRegister
        (empty.take lastRegister .temporary) with
    | error e =>
      rw [hload] at hok
      cases hok
    | ok r =>
      exact ⟨r.1, r.2, rfl, ((hoperands _ _ r.2).1 _ _ r.1 hload).temporaries.trans (by decide)⟩
  · have hok : (lowerBody oneFunction pinnedLoops .start).isOk := by decide +kernel
    cases hbody : lowerBody oneFunction pinnedLoops .start with
    | error e =>
      rw [hbody] at hok
      cases hok
    | ok r =>
      obtain ⟨hbefore, hend⟩ := hbodies _ _ _ r.2 hbody
      obtain ⟨before, hfront, -, hcard⟩ := hbefore 7 (by decide)
      have htwo : (lowerFrom oneFunction 0 (pinnedLoops.take 7) .start).toOption.map
          (·.2.temporaries.card) = some 2 := by decide +kernel
      have hnone : Progress.start.temporaries = ∅ := by decide
      have hfront : lowerFrom oneFunction 0 (pinnedLoops.take 7) .start = .ok ((), before) := hfront
      rw [hfront] at htwo
      have htwo : before.temporaries.card = 2 := Option.some.inj htwo
      refine ⟨r.2, before, rfl, hfront, htwo, ?_, hend.trans hnone⟩
      rw [htwo] at hcard
      simpa [hnone] using hcard.symm

end ImpMachine
