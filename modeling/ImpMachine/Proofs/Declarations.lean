import ImpMachine.Proofs.Folding
import ImpMachine.Proofs.Homes

/-!
# The declaration check is exact

A name may be read at an instruction if an instruction in front of it and outside of all macros
declares it or assigns to it, and may be assigned to if such an instruction declares it. Of
well-nested code `undeclared` reports, in the order of the code, exactly what breaks these rules
(`undeclared_exact`).

The check keeps two lists of names and counts the macros that are open. The nesting check keeps
a stack, which has the macros around an instruction (`inMacro_stack_iff`), so the proof lets both go
through the code together: what the first one knows is what the code in front of the instruction
says (`Known.Reflects`). Folding the code first keeps every read, so it changes nothing.
-/

namespace ImpMachine.Linear

open List

variable {code front rest : List Instr} {kind : Instr → Prop} {index : Nat}
variable {stack stack' : List Opened}

/-! ## Names in front of an instruction -/

namespace Instr

/-- The names that the operands read, in order and with repetitions. -/
def reads (i : Instr) : List String := i.operands.flatMap Operand.reads

/-- The names that count as declared behind the instruction. -/
def binds : Instr → List String
  | .declare name _ => [name]
  | .funcDecl _ params => params
  | _ => []

/-- The name that the instruction assigns to. -/
def target? : Instr → Option String
  | .assign name _ => some name
  | _ => none

end Instr

/-- An instruction of the given kind stands in front of the index and outside of all macros. -/
def Earlier (code : List Instr) (index : Nat) (kind : Instr → Prop) : Prop :=
  ∃ earlier < index, ∃ i, code[earlier]? = some i ∧ ¬InMacro code earlier ∧ kind i

/-- The name is declared in front of the index, as a variable or as a parameter. -/
def DeclaredBefore (code : List Instr) (index : Nat) (name : String) : Prop :=
  Earlier code index fun i => name ∈ i.binds

/-- The name is assigned to in front of the index. -/
def AssignedBefore (code : List Instr) (index : Nat) (name : String) : Prop :=
  Earlier code index fun i => i.target? = some name

open Classical in
/-- What is wrong with an instruction: first its reads of names neither declared nor assigned to
in front of it, one by one, then its assignment to a name not declared in front of it. Nothing is
wrong in a macro. -/
noncomputable def findingsAt (code : List Instr) (index : Nat) (i : Instr) : List Finding :=
  if InMacro code index then []
  else
    (i.reads.filter fun name =>
      ¬(DeclaredBefore code index name ∨ AssignedBefore code index name)).map .useBeforeDeclare ++
    (i.target?.toList.filter fun name => ¬DeclaredBefore code index name).map .assignBeforeDeclare

theorem not_earlier_zero : ¬Earlier code 0 kind := by
  rintro ⟨earlier, hlt, -⟩
  exact Nat.not_lt_zero _ hlt

theorem earlier_succ_iff {i : Instr} (hi : code[index]? = some i) :
    Earlier code (index + 1) kind ↔ Earlier code index kind ∨ ¬InMacro code index ∧ kind i := by
  constructor
  · rintro ⟨earlier, hlt, j, hj, houtside, hkind⟩
    rcases Nat.lt_succ_iff_lt_or_eq.1 hlt with hlt | rfl
    · exact .inl ⟨earlier, hlt, j, hj, houtside, hkind⟩
    · obtain rfl : j = i := Option.some.inj (hj.symm.trans hi)
      exact .inr ⟨houtside, hkind⟩
  · rintro (⟨earlier, hlt, h⟩ | ⟨houtside, hkind⟩)
    · exact ⟨earlier, Nat.lt_succ_of_lt hlt, h⟩
    · exact ⟨index, Nat.lt_succ_self index, i, hi, houtside, hkind⟩

/-! ## Open macros -/

/-- How many macros are open. -/
def openMacros (stack : List Opened) : Nat :=
  stack.countP (·.construct = .macroBody)

theorem openMacros_eq_zero_iff : openMacros stack = 0 ↔ ¬inMacro stack = true := by
  simp [openMacros, inMacro]

theorem openMacros_cons (top : Opened) (stack : List Opened) :
    openMacros (top :: stack) = openMacros stack + if top.construct = .macroBody then 1 else 0 := by
  simp [openMacros, countP_cons]

/-- Only the marks of macros change the number of open macros. -/
theorem openMacros_nestingStep {i : Instr}
    (h : nestingStep index stack i = .ok stack') (hopens : i.opens? ≠ some .macroBody)
    (hcloses : i.closes? ≠ some .macroBody) : openMacros stack' = openMacros stack := by
  rcases nestingStep_eq_ok h with ⟨opener, rfl, rfl⟩ | ⟨top, rfl, rfl⟩ |
    ⟨top, outer, rfl, -, -, -, rfl⟩ | ⟨-, rfl⟩
  · have hne : opener.construct ≠ .macroBody := by
      cases opener with
      | macroBody => exact absurd rfl hopens
      | _ => simp [Opener.construct]
    simp [openMacros_cons, hne]
  · have hne : top.construct ≠ .macroBody := by
      intro htop
      exact hcloses (by rw [htop]; rfl)
    simp [openMacros_cons, hne]
  · simp [openMacros_cons]
  · rfl

/-! ## What is known -/

/-- The known names and the open macros are those of the code in front of the index. -/
structure Known.Reflects (known : Known) (code : List Instr) (index : Nat) (stack : List Opened) :
    Prop where
  depth : known.macroDepth = openMacros stack
  declared : ∀ name, name ∈ known.declared ↔ DeclaredBefore code index name
  readable : ∀ name, name ∈ known.declared ∨ name ∈ known.assigned ↔
    DeclaredBefore code index name ∨ AssignedBefore code index name

theorem Known.reflects_initial (code : List Instr) : Known.initial.Reflects code 0 [] where
  depth := rfl
  declared name := by simp [Known.initial, DeclaredBefore, not_earlier_zero]
  readable name := by simp [Known.initial, DeclaredBefore, AssignedBefore, not_earlier_zero]

section Learn

variable (known : Known) (i : Instr) (name : String)

theorem macroDepth_learn : (learn known i).1.macroDepth = known.macroDepth := by
  cases i with
  | assign =>
    rw [learn]
    split <;> rfl
  | _ => rfl

theorem mem_declared_learn :
    name ∈ (learn known i).1.declared ↔ name ∈ known.declared ∨ name ∈ i.binds := by
  cases i with
  | assign =>
    rw [learn]
    split <;> simp [Instr.binds]
  | declare | funcDecl => simp [learn, Instr.binds, or_comm]
  | _ => simp [learn, Instr.binds]

/-- An assignment to a declared name adds nothing. -/
theorem mem_readable_learn :
    name ∈ (learn known i).1.declared ∨ name ∈ (learn known i).1.assigned ↔
      (name ∈ known.declared ∨ name ∈ known.assigned) ∨
        name ∈ i.binds ∨ i.target? = some name := by
  cases i with
  | assign target value =>
    by_cases htarget : target ∈ known.declared
    · simp only [learn, contains_eq_mem, htarget, decide_true, if_true]
      grind [Instr.binds, Instr.target?]
    · simp only [learn, contains_eq_mem, htarget, decide_false, Bool.false_eq_true, if_false]
      grind [Instr.binds, Instr.target?]
  | _ => grind [learn, Instr.binds, Instr.target?]

theorem findings_learn :
    (learn known i).2 =
      (i.target?.toList.filter fun name => name ∉ known.declared).map .assignBeforeDeclare := by
  cases i with
  | assign target value =>
    by_cases htarget : target ∈ known.declared <;> simp [learn, Instr.target?, htarget]
  | _ => rfl

theorem unknownReads_eq :
    unknownReads known i =
      i.reads.filter fun name => ¬(name ∈ known.declared ∨ name ∈ known.assigned) := by
  simp [unknownReads, Known.readable, Instr.reads]

end Learn

/-! ## One instruction -/

theorem declarationStep_of_ne {known : Known} {i : Instr} (hopens : i.opens? ≠ some .macroBody)
    (hcloses : i.closes? ≠ some .macroBody) :
    declarationStep known i =
      if known.macroDepth = 0 then
        ((learn known i).1, (unknownReads known i).map .useBeforeDeclare ++ (learn known i).2)
      else (known, []) := by
  cases i with
  | macroDecl => exact absurd rfl hopens
  | endMacro => exact absurd rfl hcloses
  | _ => rfl

section Step

variable {i : Instr} {known : Known}

/-- In a macro nothing is learned. -/
theorem Known.Reflects.succ_of_inMacro (h : known.Reflects code index stack)
    (hi : code[index]? = some i) (hin : InMacro code index) {later : Known}
    (hdepth : later.macroDepth = openMacros stack') (hdeclared : later.declared = known.declared)
    (hassigned : later.assigned = known.assigned) : later.Reflects code (index + 1) stack' where
  depth := hdepth
  declared name := by simp [hdeclared, h.declared, DeclaredBefore, earlier_succ_iff hi, hin]
  readable name := by
    simp only [hdeclared, hassigned, h.readable, DeclaredBefore, AssignedBefore,
      earlier_succ_iff hi, hin, not_true_eq_false, false_and, or_false]

/-- Outside of all macros the instruction itself is learned. -/
theorem Known.Reflects.learn (h : known.Reflects code index stack) (hi : code[index]? = some i)
    (houtside : ¬InMacro code index) (hstack : openMacros stack' = openMacros stack) :
    (learn known i).1.Reflects code (index + 1) stack' where
  depth := by rw [macroDepth_learn, h.depth, hstack]
  declared name := by
    simp only [mem_declared_learn, h.declared, DeclaredBefore, earlier_succ_iff hi, houtside,
      not_false_eq_true, true_and]
  readable name := by
    simp only [mem_readable_learn, h.readable, DeclaredBefore, AssignedBefore, earlier_succ_iff hi,
      houtside, not_false_eq_true, true_and]
    exact or_or_or_comm

/-- Outside of all macros, the findings are those that the known names give. -/
theorem Known.Reflects.findingsAt_eq (h : known.Reflects code index stack)
    (houtside : ¬InMacro code index) :
    findingsAt code index i =
      (unknownReads known i).map .useBeforeDeclare ++ (Linear.learn known i).2 := by
  rw [findingsAt, if_neg houtside, unknownReads_eq, findings_learn]
  congr 2
  · exact filter_congr fun name _ => decide_eq_decide.2 (not_congr (h.readable name)).symm
  · exact filter_congr fun name _ => decide_eq_decide.2 (not_congr (h.declared name)).symm

end Step

/-- **One step of the check** reports its instruction and keeps up with the code. -/
theorem declarationStep_reflects {i : Instr} {known : Known}
    (hcode : WellNested (front ++ i :: rest)) (hstack : nestingFrom 0 [] front = .ok stack)
    (hstep : nestingStep front.length stack i = .ok stack')
    (h : known.Reflects (front ++ i :: rest) front.length stack) :
    (declarationStep known i).1.Reflects (front ++ i :: rest) (front.length + 1) stack' ∧
      (declarationStep known i).2 = findingsAt (front ++ i :: rest) front.length i := by
  have hmacro := inMacro_stack_iff hcode hstack
  generalize hall : front ++ i :: rest = code at *
  have hi : code[front.length]? = some i := by simp [← hall]
  by_cases hopens : i.opens? = some .macroBody
  · obtain ⟨name, rfl⟩ : ∃ name, i = .macroDecl name := by
      cases i with
      | macroDecl name => exact ⟨name, rfl⟩
      | _ => cases hopens
    have hin := hmacro.2 (.inr rfl)
    cases hstep
    refine ⟨h.succ_of_inMacro hi hin ?_ rfl rfl, by rw [findingsAt, if_pos hin]; rfl⟩
    rw [openMacros_cons, if_pos rfl, ← h.depth]
    rfl
  by_cases hcloses : i.closes? = some .macroBody
  · obtain rfl : i = .endMacro := by
      cases i with
      | endMacro => rfl
      | _ => cases hcloses
    obtain ⟨top, rfl, htop⟩ := takeClose_eq_ok hstep
    have hin := hmacro.2 (.inl (by simp [inMacro, htop]))
    refine ⟨h.succ_of_inMacro hi hin ?_ rfl rfl, by rw [findingsAt, if_pos hin]; rfl⟩
    have hdepth := h.depth
    rw [openMacros_cons, if_pos htop] at hdepth
    exact Nat.sub_eq_of_eq_add hdepth
  · have hcount := openMacros_nestingStep hstep hopens hcloses
    rw [declarationStep_of_ne hopens hcloses]
    simp only [hopens, or_false] at hmacro
    by_cases hin : InMacro code front.length
    · have hdepth : known.macroDepth ≠ 0 := by
        rw [h.depth, ne_eq, openMacros_eq_zero_iff, not_not]
        exact hmacro.1 hin
      rw [if_neg hdepth]
      refine ⟨h.succ_of_inMacro hi hin (h.depth.trans hcount.symm) rfl rfl, ?_⟩
      rw [findingsAt, if_pos hin]
    · have hdepth : known.macroDepth = 0 := by
        rw [h.depth, openMacros_eq_zero_iff]
        exact mt hmacro.2 hin
      rw [if_pos hdepth]
      exact ⟨h.learn hi hin hcount, (h.findingsAt_eq hin).symm⟩

/-! ## All of the code -/

/-- The check of the rest of well-nested code, by induction over the rest. -/
theorem undeclaredFrom_eq {known : Known} (hcode : WellNested code) (hall : code = front ++ rest)
    (hstack : nestingFrom 0 [] front = .ok stack)
    (hrest : nestingFrom front.length stack rest = .ok [])
    (h : known.Reflects code front.length stack) :
    undeclaredFrom front.length known rest =
      (rest.zipIdx front.length).flatMap fun x => (findingsAt code x.2 x.1).map (⟨x.2, ·⟩) := by
  induction rest generalizing front known stack with
  | nil => rfl
  | cons i rest ih =>
    subst hall
    obtain ⟨stack', hstep, hrest⟩ := nestingFrom_cons_eq_ok hrest
    obtain ⟨hlater, hfindings⟩ := declarationStep_reflects hcode hstack hstep h
    have hfront : nestingFrom 0 [] (front ++ [i]) = .ok stack' := by
      rw [nestingFrom_append hstack, Nat.zero_add, nestingFrom_cons hstep]
      rfl
    have hlength : (front ++ [i]).length = front.length + 1 := length_append
    have hlater := ih (append_cons ..) hfront (hlength ▸ hrest) (hlength ▸ hlater)
    rw [undeclaredFrom, zipIdx_cons, flatMap_cons, ← hlength, ← hlater, ← hfindings]

/-- **The check reports what is wrong, in order.** -/
theorem undeclared_eq (h : WellNested code) :
    undeclared code = code.zipIdx.flatMap fun x => (findingsAt code x.2 x.1).map (⟨x.2, ·⟩) :=
  undeclaredFrom_eq h (nil_append code).symm rfl
    (checkNesting_eq_ok_iff.1 (wellNested_iff.1 h)) (Known.reflects_initial code)

/-- **What the check reports is found at its instruction.** -/
theorem mem_undeclared_iff (h : WellNested code) (d : Diagnostic) :
    d ∈ undeclared code ↔ ∃ i, code[d.index]? = some i ∧ d.finding ∈ findingsAt code d.index i := by
  rw [undeclared_eq h, mem_flatMap]
  constructor
  · rintro ⟨⟨i, index⟩, hi, hd⟩
    obtain ⟨finding, hfinding, rfl⟩ := mem_map.1 hd
    exact ⟨i, mem_zipIdx_iff_getElem?.1 hi, hfinding⟩
  · rintro ⟨i, hi, hfinding⟩
    exact ⟨(i, d.index), mem_zipIdx_iff_getElem?.2 hi, mem_map.2 ⟨_, hfinding, rfl⟩⟩

/-! ## Folded code -/

theorem declarationStep_refolded (known : Known) (i : Instr) :
    declarationStep known (refolded i) = declarationStep known i := by
  cases i with
  | declare name value | assign name value =>
    rcases refoldValue_cases name value with hkept | ⟨finding, hfolded⟩
    · simp [refolded, refoldInstr, hkept]
    · simp [refolded, refoldInstr, hfolded, declarationStep, unknownReads, Instr.operands,
        Operand.reads_fold, learn]
  | _ => rfl

/-- Folding changes no report. -/
theorem undeclared_refold (code : List Instr) : undeclared (refold code).1 = undeclared code := by
  have hfrom (index : Nat) (known : Known) :
      undeclaredFrom index known (code.map refolded) = undeclaredFrom index known code := by
    induction code generalizing index known with
    | nil => rfl
    | cons i rest ih =>
      simp only [map_cons, undeclaredFrom, declarationStep_refolded, ih]
  rw [refold_eq_map]
  exact hfrom 0 .initial

/-! ## Exactness -/

/-- **The declaration check reports exactly the undeclared uses.** Of well-nested code it gives the
findings of each instruction, in order. A read is reported if the instruction is outside of all
macros and no earlier one outside of them declares the name or assigns to it, and an assignment if
no earlier one declares the name. Folding the code first does not change the result. -/
theorem undeclared_exact :
    (∀ code : List Instr, checkNesting code = .ok () →
      undeclared code =
          code.zipIdx.flatMap (fun x => (findingsAt code x.2 x.1).map (⟨x.2, ·⟩)) ∧
        (∀ (index : Nat) (name : String), ⟨index, .useBeforeDeclare name⟩ ∈ undeclared code ↔
          ¬InMacro code index ∧ (∃ i, code[index]? = some i ∧ name ∈ i.reads) ∧
            ¬DeclaredBefore code index name ∧ ¬AssignedBefore code index name) ∧
        ∀ (index : Nat) (name : String), ⟨index, .assignBeforeDeclare name⟩ ∈ undeclared code ↔
          ¬InMacro code index ∧ (∃ value, code[index]? = some (.assign name value)) ∧
            ¬DeclaredBefore code index name) ∧
      ∀ code : List Instr, undeclared (refold code).1 = undeclared code := by
  refine ⟨fun code hcheck => ?_, undeclared_refold⟩
  have hcode := wellNested_iff.2 hcheck
  refine ⟨undeclared_eq hcode, fun index name => ?_, fun index name => ?_⟩
  · rw [mem_undeclared_iff hcode]
    by_cases hin : InMacro code index
    · simp [findingsAt, hin]
    · simp only [findingsAt, if_neg hin]
      simp [hin, ← and_assoc]
  · have htarget (i : Instr) : i.target? = some name ↔ ∃ value, i = .assign name value := by
      cases i <;> simp [Instr.target?]
    rw [mem_undeclared_iff hcode]
    by_cases hin : InMacro code index
    · simp [findingsAt, hin]
    · simp [findingsAt, hin, htarget]

/-- A name that only a macro declares, a parameter, and a name assigned to twice and never
declared. -/
def strayNames : List Instr :=
  [.assign "a" (.var "b"),
    .macroDecl "m", .declare "b" (.int 1), .print (.var "z"), .endMacro,
    .funcDecl "f" ["p"],
    .print (.binary .add (.var "p") (.binary .mul (.var "b") (.var "b"))),
    .assign "a" (.var "a"), .endFunc]

/-- Both reads of the name from the macro are reported, the reads of the parameter and in the macro
are not, and both assignments are. -/
theorem undeclared_exact_strayNames :
    checkNesting strayNames = .ok () ∧
      undeclared (refold strayNames).1 =
        [⟨0, .useBeforeDeclare "b"⟩, ⟨0, .assignBeforeDeclare "a"⟩, ⟨6, .useBeforeDeclare "b"⟩,
          ⟨6, .useBeforeDeclare "b"⟩, ⟨7, .assignBeforeDeclare "a"⟩] ∧
      ¬DeclaredBefore strayNames 6 "b" ∧ ¬InMacro strayNames 7 := by
  have hcheck : checkNesting strayNames = .ok () := by decide
  obtain ⟨hexact, hfolded⟩ := undeclared_exact
  obtain ⟨-, huse, hassign⟩ := hexact strayNames hcheck
  have hb := (huse 6 "b").1 (by decide)
  have ha := (hassign 7 "a").1 (by decide)
  exact ⟨hcheck, (hfolded strayNames).trans (by decide), hb.2.2.1, ha.1⟩

end ImpMachine.Linear
