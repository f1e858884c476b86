import ImpMachine.Proofs.Placement
import ImpMachine.Proofs.Visits

/-!
# Where instructions go when code is taken apart

Macro declarations are dropped whole, and of function declarations the marks. Every other
instruction belongs to the innermost function that it lies in, or to the top-level code (`HasHome`).
Of well-nested code, `split` makes exactly the bodies that this rule asks for, with all instructions
in their order, and the bodies are well nested again and hold no declaration (`split_places_all`).
So what stops assembly behind the nesting check has nothing to do with nesting.

`split` reads the code from its end, the nesting check from its start. The proof follows the check:
where it arrives at an instruction, its stack has the declarations around that instruction
(`hasHome_iff`).
-/

namespace ImpMachine

open List

variable {i : Instr} {stack : List Opened} {index : Nat}

namespace Linear

open Assembly

variable {front rest : List Instr}

/-! ## Homes -/

/-- The index lies in the declaration of a macro, its marks included. -/
def InMacro (code : List Instr) (index : Nat) : Prop :=
  ∃ first, Within code .macroBody first index

/-- The instruction at the index lies outside of all macros and is no mark of a function. -/
def Kept (code : List Instr) (index : Nat) : Prop :=
  ∃ i, code[index]? = some i ∧ i.isFunctionMark = false ∧ ¬InMacro code index

/-- The instruction at the index is kept, and `home` is where the innermost function around it
begins, if there is one. -/
def HasHome (code : List Instr) (home : Option Nat) (index : Nat) : Prop :=
  Kept code index ∧ match home with
    | none => ∀ first, ¬Within code .function first index
    | some home => IsGreatest {first | Within code .function first index} home

open Classical in
/-- The instructions with the given home, in their order. -/
noncomputable def bodyOf (code : List Instr) (home : Option Nat) : List Instr :=
  (code.zipIdx.filter fun x => HasHome code home x.2).map Prod.fst

open Classical in
/-- The functions declared outside of all macros, in the order of their opening marks. -/
noncomputable def functionsOf (code : List Instr) : List Function :=
  code.zipIdx.filterMap fun (i, index) =>
    match i with
    | .funcDecl name params =>
      if InMacro code index then none else some ⟨name, params, bodyOf code (some index)⟩
    | _ => none

/-! ## Homes by the stack -/

/-- An instruction lies in a macro if the stack has one, or it opens one. -/
theorem inMacro_stack_iff (hcode : WellNested (front ++ i :: rest))
    (hstack : nestingFrom 0 [] front = .ok stack) :
    InMacro (front ++ i :: rest) front.length ↔
      inMacro stack = true ∨ i.opens? = some .macroBody := by
  have hwithin (first : Nat) : Within (front ++ i :: rest) .macroBody first front.length ↔ _ :=
    within_iff hcode hstack (by decide) first
  rw [inMacro_iff]
  constructor
  · rintro ⟨first, hfirst⟩
    rcases (hwithin first).1 hfirst with ⟨o, ho, hmacro, -⟩ | ⟨-, hopens⟩
    · exact .inl ⟨o, ho, hmacro⟩
    · exact .inr hopens
  · rintro (⟨o, ho, hmacro⟩ | hopens)
    · exact ⟨o.index, (hwithin _).2 (.inl ⟨o, ho, hmacro, rfl⟩)⟩
    · exact ⟨front.length, (hwithin _).2 (.inr ⟨rfl, hopens⟩)⟩

/-- **The home of an instruction is the one that the stack has.** -/
theorem hasHome_iff (hcode : WellNested (front ++ i :: rest))
    (hstack : nestingFrom 0 [] front = .ok stack) (home : Option Nat) :
    HasHome (front ++ i :: rest) home front.length ↔
      Visit.home? ⟨front.length, i, stack⟩ = some home := by
  have hkept : Kept (front ++ i :: rest) front.length ↔
      i.isFunctionMark = false ∧ ¬(inMacro stack = true ∨ i.opens? = some .macroBody) := by
    simp [Kept, inMacro_stack_iff hcode hstack]
  have hfunction (hmark : i.isFunctionMark = false) (first : Nat) :
      Within (front ++ i :: rest) .function first front.length ↔
        ∃ o ∈ stack, o.construct = .function ∧ o.index = first := by
    have hopens : i.opens? ≠ some .function := by
      cases i with
      | funcDecl => cases hmark
      | _ => simp [Instr.opens?]
    simp [within_iff hcode hstack, hopens]
  have hsorted := (Pending.of_nestingFrom hstack).index_lt.2
  unfold HasHome Visit.home?
  rw [hkept]
  by_cases hmark : i.isFunctionMark = true
  · simp [hmark]
  · rw [Bool.not_eq_true] at hmark
    by_cases hdropped : inMacro stack = true ∨ i.opens? = some .macroBody
    · simp only [hdropped, not_true_eq_false, and_false, false_and, false_iff]
      rw [if_pos (by simpa [hmark] using hdropped)]
      simp
    · rw [if_neg (by simpa [hmark] using hdropped)]
      simp only [hmark, hdropped, not_false_eq_true, and_self, true_and, Option.some.injEq]
      cases home with
      | none =>
        rw [innermostFunction_eq_none_iff]
        simp only [hfunction hmark]
        grind
      | some home =>
        rw [innermostFunction_eq_some_iff hsorted]
        simp only [hfunction hmark]

/-! ## Taking code apart -/

section Code

variable {code : List Instr}

theorem exists_of_getElem? (h : WellNested code) (hi : code[index]? = some i) :
    ∃ front rest stack, code = front ++ i :: rest ∧ front.length = index ∧
      nestingFrom 0 [] front = .ok stack := by
  obtain ⟨hlt, rfl⟩ := List.getElem?_eq_some_iff.1 hi
  have hsplit : code = code.take index ++ code[index] :: code.drop (index + 1) := by
    rw [← drop_eq_getElem_cons hlt, take_append_drop]
  have hall := checkNesting_eq_ok_iff.1 (wellNested_iff.1 h)
  rw [hsplit] at hall
  obtain ⟨stack, hstack⟩ := exists_nestingFrom_front hall
  exact ⟨_, _, stack, hsplit, length_take_of_le (Nat.le_of_lt hlt), hstack⟩

theorem bodyOf_eq_gather (h : WellNested code) (home : Option Nat) :
    bodyOf code home = gather home (visits 0 [] code) := by
  have hall := checkNesting_eq_ok_iff.1 (wellNested_iff.1 h)
  rw [bodyOf, ← map_visits hall, filter_map, map_map, gather]
  refine congrArg (List.map _) (filter_congr fun v hv => ?_)
  obtain ⟨index, i, stack⟩ := v
  obtain ⟨front, rest, hcode, rfl, hstack⟩ := exists_of_mem_visits hall hv
  subst hcode
  exact decide_eq_decide.2 (hasHome_iff h hstack home)

theorem functionsOf_eq_declared (h : WellNested code) :
    functionsOf code = declared (visits 0 [] code) (visits 0 [] code) := by
  have hall := checkNesting_eq_ok_iff.1 (wellNested_iff.1 h)
  rw [functionsOf, ← map_visits hall, filterMap_map, declared]
  refine filterMap_congr fun v hv => ?_
  obtain ⟨index, i, stack⟩ := v
  obtain ⟨front, rest, hcode, rfl, hstack⟩ := exists_of_mem_visits hall hv
  subst hcode
  cases i with
  | funcDecl name params =>
    have hmacro := inMacro_stack_iff h hstack
    simp only [Instr.opens?, Option.some.injEq, reduceCtorEq, or_false] at hmacro
    by_cases hin : inMacro stack = true
    · simp [Visit.declares?, hin, hmacro.2 hin]
    · simp [Visit.declares?, hin, mt hmacro.1 hin, bodyOf_eq_gather h]
  | _ => rfl

/-- **Taking code apart makes the bodies that the homes ask for.** -/
theorem split_eq (h : WellNested code) : split code = ⟨bodyOf code none, functionsOf code⟩ := by
  have hsurrounds : Surrounds [] 0 := ⟨rfl, by simp⟩
  rw [bodyOf_eq_gather h, functionsOf_eq_declared h]
  obtain ⟨n, rfl⟩ := h
  have hmain : gather none (visits 0 [] n.flatten) = n.body.flatten := gather_visits n hsurrounds
  rw [n.split_flatten, hmain, declared_visits n hsurrounds fun _ _ _ => rfl]

/-- What is kept has one home. -/
theorem existsUnique_home (h : WellNested code) (hkept : Kept code index) :
    ∃! home, HasHome code home index := by
  obtain ⟨i, hi, hmark, hmacro⟩ := id hkept
  obtain ⟨front, rest, stack, rfl, rfl, hstack⟩ := exists_of_getElem? h hi
  rw [inMacro_stack_iff h hstack, not_or] at hmacro
  have hhome : Visit.home? ⟨front.length, i, stack⟩ = some (innermostFunction stack) := by
    simp [Visit.home?, hmark, hmacro]
  refine ⟨innermostFunction stack, (hasHome_iff h hstack _).2 hhome, fun home hother => ?_⟩
  exact (Option.some.inj (hhome.symm.trans ((hasHome_iff h hstack home).1 hother))).symm

/-- A home lies outside of all macros, for one around it is around all in it. -/
theorem HasHome.declared (h : WellNested code) {home : Nat}
    (hhome : HasHome code (some home) index) :
    (∃ name params, code[home]? = some (.funcDecl name params)) ∧ ¬InMacro code home := by
  obtain ⟨⟨i, hi, hmark, hmacro⟩, hwithin, -⟩ := hhome
  obtain ⟨front, rest, stack, rfl, rfl, hstack⟩ := exists_of_getElem? h hi
  have hlt : home < front.length := by
    rcases (within_iff h hstack (by decide) home).1 hwithin with ⟨o, ho, -, rfl⟩ | ⟨-, hopens⟩
    · exact (Pending.of_nestingFrom hstack).index_lt.1 o ho
    · cases i with
      | funcDecl => cases hmark
      | _ => cases hopens
  have houtside := mt (inMacro_stack_iff h hstack).2 hmacro
  obtain ⟨above, below, rfl, hbelow⟩ := Within.exists_stack hwithin rfl hlt hstack
  obtain ⟨before, inner, back, opener, hcode, hopener, -, rfl, -⟩ := hwithin
  cases opener with
  | function name params =>
    rw [hcode] at h hbelow ⊢
    rw [take_left] at hbelow
    refine ⟨⟨name, params, by simp [Opener.first]⟩, fun hin => ?_⟩
    rcases (inMacro_stack_iff h hbelow).1 hin with hin | hopens
    · obtain ⟨o, ho, hconstruct⟩ := inMacro_iff.1 hin
      exact houtside (.inl (inMacro_iff.2 ⟨o, by simp [ho], hconstruct⟩))
    · cases hopens
  | _ => cases hopener

end Code

/-! ## Bodies -/

namespace Body

theorem balanced_flatten (b : Body) : Balanced b.flatten := by
  induction b with
  | nil => exact .nil
  | plain i hi rest ih => exact .plain_cons hi ih
  | conditional cond body rest ihbody ihrest =>
    exact Balanced.enclosed (.conditional cond) ihbody ihrest
  | choice cond body other rest ihbody ihother ihrest => exact .choice cond ihbody ihother ihrest
  | loop cond body rest ihbody ihrest => exact Balanced.enclosed (.loop cond) ihbody ihrest
  | block body rest ihbody ihrest => exact Balanced.enclosed .block ihbody ihrest

theorem isDeclarationMark_of_mem_flatten (b : Body) :
    ∀ i ∈ b.flatten, i.isDeclarationMark = false := by
  induction b with
  | nil => simp [flatten]
  | plain i hi rest ih => exact forall_mem_cons.2 ⟨hi.isDeclarationMark, ih⟩
  | conditional cond body rest ihbody ihrest | loop cond body rest ihbody ihrest
  | block body rest ihbody ihrest =>
    simp only [flatten, forall_mem_cons, forall_mem_append]
    exact ⟨rfl, ihbody, rfl, ihrest⟩
  | choice cond body other rest ihbody ihother ihrest =>
    simp only [flatten, forall_mem_cons, forall_mem_append]
    exact ⟨rfl, ihbody, rfl, ihother, rfl, ihrest⟩

end Body

end Linear

open Linear Assembly

/-- **Taking well-nested code apart loses nothing.** The parts are the instructions of each home in
their order, for the top-level code and for every function declared outside of macros; what is kept
has one home, and that is one of these. The bodies hold no mark of a declaration and are well
nested, so assembly does not fail for the nesting of code that the check accepts. -/
theorem split_places_all {code : List Instr} (h : checkNesting code = .ok ()) :
    split code = ⟨bodyOf code none, functionsOf code⟩ ∧
      (∀ index, Kept code index → ∃! home, HasHome code home index) ∧
      (∀ home index, HasHome code (some home) index →
        (∃ name params, code[home]? = some (.funcDecl name params)) ∧ ¬InMacro code home) ∧
      (∀ body ∈ (split code).main :: (split code).functions.map Function.body,
        (∀ i ∈ body, i.isDeclarationMark = false) ∧ checkNesting body = .ok ()) ∧
      ∀ e, assemble code ≠ .error (.unbalanced e) := by
  have hnested := wellNested_iff.2 h
  refine ⟨split_eq hnested, fun _ => existsUnique_home hnested, fun _ _ => HasHome.declared hnested,
    ?_, fun e he => (gives_assemble h).not_isRuledOut he trivial⟩
  obtain ⟨n, rfl⟩ := hnested
  rw [n.split_flatten, map_map]
  have hbody (b : Body) : (∀ i ∈ b.flatten, i.isDeclarationMark = false) ∧
      checkNesting b.flatten = .ok () :=
    ⟨b.isDeclarationMark_of_mem_flatten, balanced_iff.1 b.balanced_flatten⟩
  refine forall_mem_cons.2 ⟨hbody _, fun body hmem => ?_⟩
  obtain ⟨r, -, rfl⟩ := mem_map.1 hmem
  exact hbody r.body

/-- A function with a conditional, in which a macro and another function are declared. -/
def nestedFunctions : List Instr :=
  [.funcDecl "f" ["a"], .ifBegin (.var "a"), .macroDecl "m", .funcDecl "h" [], .blockStart,
    .blockEnd, .endFunc, .endMacro, .funcDecl "g" [], .ret (.var "b"), .endFunc, .print (.var "a"),
    .endIf, .endFunc, .print (.var "c")]

theorem split_places_all_nestedFunctions :
    checkNesting nestedFunctions = .ok () ∧
      bodyOf nestedFunctions none = [.print (.var "c")] ∧
      functionsOf nestedFunctions =
        [⟨"f", ["a"], [.ifBegin (.var "a"), .print (.var "a"), .endIf]⟩,
          ⟨"g", [], [.ret (.var "b")]⟩] ∧
      ∀ e, assemble nestedFunctions ≠ .error (.unbalanced e) := by
  have hcheck : checkNesting nestedFunctions = .ok () := rfl
  obtain ⟨hsplit, -, -, -, hassemble⟩ := split_places_all hcheck
  exact ⟨rfl, (congrArg Parts.main hsplit).symm, (congrArg Parts.functions hsplit).symm, hassemble⟩

end ImpMachine
