import ImpMachine.Proofs.Enclosing
import ImpMachine.Proofs.Splitting

/-!
# The check going through code

The nesting check arrives at every instruction with the constructs then open on its stack
(`visits`). By this stack an instruction belongs to the innermost open function, and nothing in a
macro is kept. Inside a tree everything below the tree stays on the stack, and what lies above it
begins in the tree. So a tree adds what stands in it outside of declarations to the function around
it (`gather_visits`), and the functions declared in it have the bodies of its routines
(`declared_visits`).
-/

namespace ImpMachine.Linear

open Assembly List

variable {code : List Instr}
variable {i : Instr} {stack final : List Opened} {index low q : Nat}

/-! ## What the stack says of an instruction -/

/-- The instruction opens or closes the declaration of a function. -/
def Instr.isFunctionMark : Instr → Bool
  | .funcDecl .. | .endFunc => true
  | _ => false

/-- The instruction opens or closes a declaration. -/
def Instr.isDeclarationMark : Instr → Bool
  | .funcDecl .. | .endFunc | .macroDecl _ | .endMacro => true
  | _ => false

theorem Instr.IsPlain.isDeclarationMark (h : i.IsPlain) : i.isDeclarationMark = false := by
  obtain ⟨hopens, hcloses, -⟩ := h
  cases i with
  | funcDecl | macroDecl => cases hopens
  | endFunc | endMacro => cases hcloses
  | _ => rfl

/-- A macro is open. -/
def inMacro (stack : List Opened) : Bool :=
  stack.any (·.construct = .macroBody)

/-- Where the innermost open function begins. -/
def innermostFunction (stack : List Opened) : Option Nat :=
  (stack.find? (·.construct = .function)).map (·.index)

/-- An instruction as the check arrives at it, with the constructs then open. -/
structure Visit where
  index : Nat
  instr : Instr
  stack : List Opened

variable {v : Visit} {all : List Visit}

/-- Where the instruction belongs, if it is kept. -/
def Visit.home? (v : Visit) : Option (Option Nat) :=
  if inMacro v.stack || v.instr.isFunctionMark || v.instr.opens? = some .macroBody then none
  else some (innermostFunction v.stack)

/-- The name and the parameters of the function that the instruction declares, outside of all
macros. -/
def Visit.declares? (v : Visit) : Option (String × List String) :=
  match v.instr with
  | .funcDecl name params => if inMacro v.stack then none else some (name, params)
  | _ => none

/-- The check going through code. -/
def visits (index : Nat) (stack : List Opened) : List Instr → List Visit
  | [] => []
  | i :: rest => ⟨index, i, stack⟩ ::
    match nestingStep index stack i with
    | .ok next => visits (index + 1) next rest
    | .error _ => []

/-- The instructions that belong to the given home. -/
def gather (home : Option Nat) (vs : List Visit) : List Instr :=
  (vs.filter (·.home? = some home)).map (·.instr)

/-- The functions that some of the instructions declare, with their bodies from all of them. -/
def declared (all vs : List Visit) : List Function :=
  vs.filterMap fun v => v.declares?.map fun (name, params) =>
    ⟨name, params, gather (some v.index) all⟩

theorem inMacro_iff : inMacro stack = true ↔ ∃ o ∈ stack, o.construct = .macroBody := by
  simp [inMacro]

/-- The function that begins last is the first on the stack. -/
theorem innermostFunction_eq_some_iff (h : stack.Pairwise fun o outer => outer.index < o.index)
    {home : Nat} :
    innermostFunction stack = some home ↔
      IsGreatest {first | ∃ o ∈ stack, o.construct = .function ∧ o.index = first} home := by
  have hgreatest {o : Opened} (ho : stack.find? (·.construct = .function) = some o) :
      IsGreatest {first | ∃ o ∈ stack, o.construct = .function ∧ o.index = first} o.index := by
    obtain ⟨hfunction, front, back, rfl, hfront⟩ := List.find?_eq_some_iff_append.1 ho
    refine ⟨⟨o, by simp, by simpa using hfunction, rfl⟩, ?_⟩
    rintro _ ⟨o', ho', hfunction', rfl⟩
    rcases mem_append.1 ho' with ho' | ho'
    · simpa [hfunction'] using hfront o' ho'
    · rcases mem_cons.1 ho' with rfl | ho'
      · exact Nat.le_refl _
      · exact Nat.le_of_lt (rel_of_pairwise_cons (pairwise_append.1 h).2.1 ho')
  constructor
  · intro hhome
    obtain ⟨o, ho, rfl⟩ := Option.map_eq_some_iff.1 hhome
    exact hgreatest ho
  · intro hhome
    obtain ⟨o', ho', hfunction, -⟩ := hhome.1
    cases hfind : stack.find? (·.construct = .function) with
    | none => simpa [hfunction] using List.find?_eq_none.1 hfind o' ho'
    | some o => rw [innermostFunction, hfind, Option.map_some, (hgreatest hfind).unique hhome]

theorem innermostFunction_eq_none_iff :
    innermostFunction stack = none ↔ ∀ o ∈ stack, o.construct ≠ .function := by
  simp [innermostFunction]

/-! ## The check going through code -/

/-- The visit of one instruction, then the others. -/
theorem visits_cons {next : List Opened} (rest : List Instr)
    (h : nestingStep index stack i = .ok next) :
    visits index stack (i :: rest) = ⟨index, i, stack⟩ :: visits (index + 1) next rest := by
  rw [visits, h]

theorem visits_append {reached : List Opened} {front : List Instr}
    (rest : List Instr) (h : nestingFrom index stack front = .ok reached) :
    visits index stack (front ++ rest) =
      visits index stack front ++ visits (index + front.length) reached rest := by
  induction front generalizing index stack with
  | nil =>
    cases h
    rfl
  | cons i front ih =>
    obtain ⟨next, hstep, h⟩ := nestingFrom_cons_eq_ok h
    rw [cons_append, visits_cons _ hstep, visits_cons _ hstep, ih h, length_cons,
      Nat.add_assoc, Nat.add_comm 1, cons_append]

/-- Every instruction is visited once, in the order of the code. -/
theorem map_visits (h : nestingFrom index stack code = .ok final) :
    (visits index stack code).map (fun v => (v.instr, v.index)) = code.zipIdx index := by
  induction code generalizing index stack with
  | nil => rfl
  | cons i rest ih =>
    obtain ⟨next, hstep, h⟩ := nestingFrom_cons_eq_ok h
    rw [visits_cons _ hstep, map_cons, ih h, zipIdx_cons]

/-- A visit has the stack that the check has in front of the instruction. -/
theorem exists_of_mem_visits (h : nestingFrom 0 [] code = .ok final) (hv : v ∈ visits 0 [] code) :
    ∃ front rest, code = front ++ v.instr :: rest ∧ front.length = v.index ∧
      nestingFrom 0 [] front = .ok v.stack := by
  have hrun {rest front : List Instr} {stack : List Opened}
      (hfront : nestingFrom 0 [] front = .ok stack)
      (hrest : nestingFrom front.length stack rest = .ok final)
      (hv : v ∈ visits front.length stack rest) :
      ∃ before after, front ++ rest = before ++ v.instr :: after ∧ before.length = v.index ∧
        nestingFrom 0 [] before = .ok v.stack := by
    induction rest generalizing front stack with
    | nil => cases hv
    | cons i rest ih =>
      obtain ⟨next, hstep, hrest⟩ := nestingFrom_cons_eq_ok hrest
      rw [visits_cons _ hstep] at hv
      rcases mem_cons.1 hv with rfl | hv
      · exact ⟨front, rest, rfl, rfl, hfront⟩
      · have hnext : nestingFrom 0 [] (front ++ [i]) = .ok next := by
          rw [nestingFrom_append hfront, Nat.zero_add, nestingFrom_cons hstep]
          rfl
        have hlength : (front ++ [i]).length = front.length + 1 := length_append
        rw [← hlength] at hrest hv
        simpa using ih hnext hrest hv
  have hstart : nestingFrom 0 [] [] = .ok [] := rfl
  exact hrun hstart h hv

/-- What is open below code stays open, the rest begins in the code. -/
theorem stack_of_mem_visits {above below : List Opened}
    (hcode : nestingFrom index above code = .ok final)
    (habove : ∀ o ∈ above, low ≤ o.index ∧ o.index < index) (hlow : low ≤ index)
    (hv : v ∈ visits index (above ++ below) code) :
    ∃ inner, v.stack = inner ++ below ∧
      ∀ o ∈ inner, low ≤ o.index ∧ o.index < index + code.length := by
  induction code generalizing index above with
  | nil => cases hv
  | cons i rest ih =>
    obtain ⟨next, hstep, hcode⟩ := nestingFrom_cons_eq_ok hcode
    rw [visits_cons _ (nestingStep_append hstep below)] at hv
    have hlength : index + (i :: rest).length = index + 1 + rest.length := by
      rw [length_cons]
      omega
    rw [hlength]
    rcases mem_cons.1 hv with rfl | hv
    · refine ⟨above, rfl, fun o ho => ?_⟩
      have hbounds := habove o ho
      omega
    · refine ih hcode ?_ (by omega) hv
      rcases nestingStep_eq_ok hstep with ⟨opener, rfl, rfl⟩ | ⟨top, rfl, rfl⟩ |
        ⟨top, outer, rfl, rfl, -, -, rfl⟩ | ⟨-, rfl⟩
      all_goals grind

/-! ## Gathering -/

section Gather

variable {home : Option Nat} {vs ws : List Visit}

theorem gather_append (home : Option Nat) (vs ws : List Visit) :
    gather home (vs ++ ws) = gather home vs ++ gather home ws := by
  simp [gather]

theorem gather_cons_of_eq (h : v.home? = some home) (vs : List Visit) :
    gather home (v :: vs) = v.instr :: gather home vs := by
  simp [gather, h]

theorem gather_cons_of_ne (h : v.home? ≠ some home) (vs : List Visit) :
    gather home (v :: vs) = gather home vs := by
  simp [gather, h]

theorem gather_eq_nil (h : ∀ v ∈ vs, v.home? ≠ some home) : gather home vs = [] := by
  simpa [gather] using h

theorem declared_append (all vs ws : List Visit) :
    declared all (vs ++ ws) = declared all vs ++ declared all ws :=
  filterMap_append

theorem declared_cons_of_none (h : v.declares? = none) (all vs : List Visit) :
    declared all (v :: vs) = declared all vs := by
  simp [declared, h]

theorem declared_cons_of_some {name : String} {params : List String}
    (h : v.declares? = some (name, params)) (all vs : List Visit) :
    declared all (v :: vs) = ⟨name, params, gather (some v.index) all⟩ :: declared all vs := by
  simp [declared, h]

end Gather

/-! ## Trees -/

section Trees

theorem innermostFunction_append (inner stack : List Opened) :
    innermostFunction (inner ++ stack) =
      (innermostFunction inner).or (innermostFunction stack) := by
  rw [innermostFunction, List.find?_append, Option.map_or]
  rfl

theorem innermostFunction_cons_of_ne {o : Opened} (h : o.construct ≠ .function)
    (stack : List Opened) : innermostFunction (o :: stack) = innermostFunction stack := by
  simp [innermostFunction, h]

/-- A tree adds the functions declared in it to those around it. -/
theorem home?_of_mem_visits {n : Nested} {home : Option Nat}
    (hv : v ∈ visits index stack n.flatten) (hhome : v.home? = some home) :
    inMacro stack = false ∧ (home = innermostFunction stack ∨
      ∃ q, home = some q ∧ index ≤ q ∧ q < index + n.flatten.length) := by
  obtain ⟨inner, hstack, hinner⟩ :=
    stack_of_mem_visits (n.balanced_flatten index []) (by simp) (Nat.le_refl _) hv
  unfold Visit.home? at hhome
  rw [hstack] at hhome
  split at hhome
  · cases hhome
  · rename_i hkept
    cases hhome
    refine ⟨?_, ?_⟩
    · by_contra hmacro
      exact hkept (by simp_all [inMacro])
    · rw [innermostFunction_append]
      cases hfind : innermostFunction inner with
      | none => exact .inl rfl
      | some q =>
        obtain ⟨o, ho, rfl⟩ := Option.map_eq_some_iff.1 hfind
        exact .inr ⟨_, rfl, hinner o (mem_of_find?_eq_some ho)⟩

theorem gather_visits_eq_nil {home : Option Nat} (n : Nested) (hne : home ≠ innermostFunction stack)
    (hout : ∀ q, home = some q → q < index ∨ index + n.flatten.length ≤ q) :
    gather home (visits index stack n.flatten) = [] := by
  refine gather_eq_nil fun v hv hhome => ?_
  rcases (home?_of_mem_visits hv hhome).2 with rfl | ⟨q, rfl, hlow, hhigh⟩
  · exact hne rfl
  · have := hout q rfl
    omega

/-- Nothing is kept of a macro, and no function in it is declared. -/
theorem gather_visits_of_inMacro (home : Option Nat) (n : Nested) (h : inMacro stack = true) :
    gather home (visits index stack n.flatten) = [] := by
  refine gather_eq_nil fun v hv hhome => ?_
  have hmacro := (home?_of_mem_visits hv hhome).1
  rw [h] at hmacro
  cases hmacro

theorem declared_visits_of_inMacro (all : List Visit) (n : Nested) (h : inMacro stack = true) :
    declared all (visits index stack n.flatten) = [] := by
  refine filterMap_eq_nil_iff.2 fun v hv => ?_
  obtain ⟨inner, hstack, -⟩ :=
    stack_of_mem_visits (n.balanced_flatten index []) (by simp) (Nat.le_refl _) hv
  have hmacro : inMacro v.stack = true := by simp_all [inMacro]
  rw [Option.map_eq_none_iff, Visit.declares?]
  split
  · rw [if_pos hmacro]
  · rfl

theorem lt_of_innermostFunction {home : Nat} (h : ∀ o ∈ stack, o.index < low)
    (hhome : innermostFunction stack = some home) : home < low := by
  obtain ⟨o, ho, rfl⟩ := Option.map_eq_some_iff.1 hhome
  exact h o (mem_of_find?_eq_some ho)

/-- A function that begins behind the open constructs is no home yet. -/
theorem home?_ne {home : Nat} (h : ∀ o ∈ stack, o.index < low) (hle : low ≤ home) (later : Nat)
    (i : Instr) : Visit.home? ⟨later, i, stack⟩ ≠ some (some home) := by
  unfold Visit.home?
  split
  · simp
  · intro hhome
    exact Nat.not_lt.2 hle (lt_of_innermostFunction h (Option.some.inj hhome))

theorem gather_some_visits_eq_nil (n : Nested) {home : Nat} (h : ∀ o ∈ stack, o.index < low)
    (hle : low ≤ home) (hout : home < index ∨ index + n.flatten.length ≤ home) :
    gather (some home) (visits index stack n.flatten) = [] := by
  refine gather_visits_eq_nil n (fun heq => ?_) fun q hq => ?_
  · exact Nat.not_lt.2 hle (lt_of_innermostFunction h heq.symm)
  · cases hq
    exact hout

/-- The constructs open around code that begins at the index: no macro, and all begin before. -/
structure Surrounds (stack : List Opened) (index : Nat) : Prop where
  outside : inMacro stack = false
  before : ∀ o ∈ stack, o.index < index

namespace Surrounds

theorem mono (h : Surrounds stack index) {later : Nat} (hle : index ≤ later) :
    Surrounds stack later :=
  ⟨h.outside, fun o ho => Nat.lt_of_lt_of_le (h.before o ho) hle⟩

theorem push (h : Surrounds stack index) {construct : Construct} (hne : construct ≠ .macroBody)
    (hasElse : Bool) : Surrounds (⟨index, construct, hasElse⟩ :: stack) (index + 1) := by
  refine ⟨?_, forall_mem_cons.2 ⟨Nat.lt_succ_self _, (h.mono (Nat.le_succ _)).before⟩⟩
  have houtside := h.outside
  simp_all [inMacro]

/-- All but the marks of declarations is kept. -/
theorem home?_eq (h : Surrounds stack index) (hi : i.isDeclarationMark = false)
    (later : Nat) : Visit.home? ⟨later, i, stack⟩ = some (innermostFunction stack) := by
  have hkept : (i.isFunctionMark || i.opens? = some .macroBody) = false := by
    cases i with
    | funcDecl | endFunc | macroDecl | endMacro => cases hi
    | _ => rfl
  rw [Visit.home?, h.outside, Bool.false_or, hkept]
  rfl

end Surrounds

/-- The visits of a construct: mark, body, mark, rest. -/
theorem visits_enclosed (index : Nat) (stack : List Opened) (opener : Opener)
    (inner rest : Nested) :
    visits index stack (Nested.enclosed opener inner rest).flatten =
      ⟨index, opener.first, stack⟩ ::
        (visits (index + 1) (⟨index, opener.construct, false⟩ :: stack) inner.flatten ++
          ⟨index + 1 + inner.flatten.length, opener.construct.last,
            ⟨index, opener.construct, false⟩ :: stack⟩ ::
          visits (index + 1 + inner.flatten.length + 1) stack rest.flatten) := by
  have hlast : nestingStep (index + 1 + inner.flatten.length)
      (⟨index, opener.construct, false⟩ :: stack) opener.construct.last = .ok stack :=
    nestingStep_last
  rw [Nested.flatten, visits_cons _ (nestingStep_first opener),
    visits_append _ (inner.balanced_flatten _ _), visits_cons _ hlast]

/-- The visits of a conditional with two branches. -/
theorem visits_choice (index : Nat) (stack : List Opened) (cond : Operand)
    (body other rest : Nested) :
    visits index stack (Nested.choice cond body other rest).flatten =
      ⟨index, .ifBegin cond, stack⟩ ::
        (visits (index + 1) (⟨index, .conditional, false⟩ :: stack) body.flatten ++
          ⟨index + 1 + body.flatten.length, .elseMark, ⟨index, .conditional, false⟩ :: stack⟩ ::
          (visits (index + 1 + body.flatten.length + 1) (⟨index, .conditional, true⟩ :: stack)
              other.flatten ++
            ⟨index + 1 + body.flatten.length + 1 + other.flatten.length, .endIf,
              ⟨index, .conditional, true⟩ :: stack⟩ ::
            visits (index + 1 + body.flatten.length + 1 + other.flatten.length + 1) stack
              rest.flatten)) := by
  rw [Nested.flatten, visits_cons _ (nestingStep_ifBegin cond),
    visits_append _ (body.balanced_flatten _ _), visits_cons _ nestingStep_elseMark,
    visits_append _ (other.balanced_flatten _ _), visits_cons _ nestingStep_endIf]

/-- The marks of a construct do not belong to functions behind the first. -/
theorem gather_some_enclosed (opener : Opener) (inner rest : Nested)
    (h : ∀ o ∈ stack, o.index < index) (hq : index < q) :
    gather (some q) (visits index stack (Nested.enclosed opener inner rest).flatten) =
      gather (some q)
          (visits (index + 1) (⟨index, opener.construct, false⟩ :: stack) inner.flatten) ++
        gather (some q) (visits (index + 1 + inner.flatten.length + 1) stack rest.flatten) := by
  have hopen : ∀ o ∈ (⟨index, opener.construct, false⟩ : Opened) :: stack, o.index < q :=
    forall_mem_cons.2 ⟨hq, fun o ho => Nat.lt_trans (h o ho) hq⟩
  rw [visits_enclosed, gather_cons_of_ne (home?_ne h (Nat.le_of_lt hq) _ _), gather_append,
    gather_cons_of_ne (home?_ne hopen (Nat.le_refl _) _ _)]

/-- Functions behind a conditional have nothing of its marks. -/
theorem gather_some_choice (cond : Operand) (body other rest : Nested)
    (h : ∀ o ∈ stack, o.index < index) (hq : index < q) :
    gather (some q) (visits index stack (Nested.choice cond body other rest).flatten) =
      gather (some q) (visits (index + 1) (⟨index, .conditional, false⟩ :: stack) body.flatten) ++
        (gather (some q) (visits (index + 1 + body.flatten.length + 1)
            (⟨index, .conditional, true⟩ :: stack) other.flatten) ++
          gather (some q) (visits (index + 1 + body.flatten.length + 1 + other.flatten.length + 1)
            stack rest.flatten)) := by
  have hopen (hasElse : Bool) :
      ∀ o ∈ (⟨index, .conditional, hasElse⟩ : Opened) :: stack, o.index < q :=
    forall_mem_cons.2 ⟨hq, fun o ho => Nat.lt_trans (h o ho) hq⟩
  rw [visits_choice, gather_cons_of_ne (home?_ne h (Nat.le_of_lt hq) _ _), gather_append,
    gather_cons_of_ne (home?_ne (hopen _) (Nat.le_refl _) _ _), gather_append,
    gather_cons_of_ne (home?_ne (hopen _) (Nat.le_refl _) _ _)]

/-- A declaration adds nothing to the function around it. -/
theorem gather_visits_declaration (opener : Opener) (inner rest : Nested)
    (h : Surrounds stack index) (hopener : opener.first.isDeclarationMark = true) :
    gather (innermostFunction stack)
        (visits index stack (Nested.enclosed opener inner rest).flatten) =
      gather (innermostFunction stack)
        (visits (index + 1 + inner.flatten.length + 1) stack rest.flatten) := by
  have hfirst : Visit.home? ⟨index, opener.first, stack⟩ = none := by
    cases opener with
    | function | macroBody =>
      simp [Visit.home?, Opener.first, Instr.isFunctionMark, Instr.opens?]
    | _ => cases hopener
  have hlast : Visit.home? ⟨index + 1 + inner.flatten.length, opener.construct.last,
      ⟨index, opener.construct, false⟩ :: stack⟩ = none := by
    cases opener with
    | function | macroBody =>
      simp [Visit.home?, inMacro, Opener.construct, Construct.last, Instr.isFunctionMark]
    | _ => cases hopener
  have hinner : gather (innermostFunction stack)
      (visits (index + 1) (⟨index, opener.construct, false⟩ :: stack) inner.flatten) = [] := by
    cases opener with
    | function =>
      refine gather_visits_eq_nil inner (fun heq => ?_) fun q hq => .inl ?_
      · exact Nat.lt_irrefl _ (lt_of_innermostFunction h.before heq)
      · exact Nat.lt_succ_of_lt (lt_of_innermostFunction h.before hq)
    | macroBody => exact gather_visits_of_inMacro _ inner (by simp [inMacro, Opener.construct])
    | _ => cases hopener
  rw [visits_enclosed, gather_cons_of_ne (by rw [hfirst]; simp), gather_append, hinner,
    gather_cons_of_ne (by rw [hlast]; simp), nil_append]

/-- A construct leaves its code and marks to the function around it. -/
theorem gather_visits_construct (opener : Opener) (inner rest : Nested)
    (h : Surrounds stack index) (hopener : opener.first.isDeclarationMark = false) :
    gather (innermostFunction stack)
        (visits index stack (Nested.enclosed opener inner rest).flatten) =
      opener.first :: (gather (innermostFunction (⟨index, opener.construct, false⟩ :: stack))
          (visits (index + 1) (⟨index, opener.construct, false⟩ :: stack) inner.flatten) ++
        opener.construct.last :: gather (innermostFunction stack)
          (visits (index + 1 + inner.flatten.length + 1) stack rest.flatten)) := by
  have hconstruct : opener.construct ≠ .function ∧ opener.construct ≠ .macroBody := by
    cases opener with
    | function | macroBody => cases hopener
    | _ => exact ⟨by simp [Opener.construct], by simp [Opener.construct]⟩
  have hlast : opener.construct.last.isDeclarationMark = false := by
    cases opener with
    | function | macroBody => cases hopener
    | _ => rfl
  have hsame : innermostFunction (⟨index, opener.construct, false⟩ :: stack) =
      innermostFunction stack := innermostFunction_cons_of_ne hconstruct.1 stack
  have hpush := (h.push hconstruct.2 false).home?_eq hlast (index + 1 + inner.flatten.length)
  rw [hsame] at hpush ⊢
  rw [visits_enclosed, gather_cons_of_eq (h.home?_eq hopener index), gather_append,
    gather_cons_of_eq hpush]

/-- **What a tree adds to the function around it** stands outside of declarations. -/
theorem gather_visits (n : Nested) (h : Surrounds stack index) :
    gather (innermostFunction stack) (visits index stack n.flatten) = n.body.flatten := by
  induction n generalizing index stack with
  | nil => rfl
  | plain i hi rest ih =>
    rw [Nested.flatten, visits_cons _ (nestingStep_of_isPlain hi),
      gather_cons_of_eq (h.home?_eq hi.isDeclarationMark index), ih (h.mono (Nat.le_succ _))]
    rfl
  | enclosed opener inner rest ihinner ihrest =>
    have hle : index ≤ index + 1 + inner.flatten.length + 1 := by omega
    have hrest := ihrest (h.mono hle)
    cases opener with
    | function | macroBody => rw [gather_visits_declaration _ inner rest h rfl, hrest, Nested.body]
    | conditional | loop | block =>
      rw [gather_visits_construct _ inner rest h rfl, hrest,
        ihinner (h.push (by simp [Opener.construct]) false)]
      rfl
  | choice cond body other rest ihbody ihother ihrest =>
    have hle : index + 1 ≤ index + 1 + body.flatten.length + 1 := by omega
    have hle' : index ≤ index + 1 + body.flatten.length + 1 + other.flatten.length + 1 := by omega
    have hsame (hasElse : Bool) : innermostFunction (⟨index, .conditional, hasElse⟩ :: stack) =
        innermostFunction stack := innermostFunction_cons_of_ne (by simp) stack
    have hpush (hasElse : Bool) : Surrounds (⟨index, .conditional, hasElse⟩ :: stack) (index + 1) :=
      h.push (by simp) hasElse
    have hbody := ihbody (hpush false)
    have hother := ihother ((hpush true).mono hle)
    have helse := (hpush false).home?_eq (i := .elseMark) rfl (index + 1 + body.flatten.length)
    have hlast := (hpush true).home?_eq (i := .endIf) rfl
      (index + 1 + body.flatten.length + 1 + other.flatten.length)
    rw [hsame] at hbody hother helse hlast
    rw [visits_choice, gather_cons_of_eq (h.home?_eq rfl index), gather_append, hbody,
      gather_cons_of_eq helse, gather_append, hother, gather_cons_of_eq hlast,
      ihrest (h.mono hle')]
    rfl

/-- What a function keeps of its own body. -/
theorem gather_visits_function (name : String) (params : List String) (inner rest : Nested)
    (h : Surrounds stack index) :
    gather (some index)
        (visits index stack (Nested.enclosed (.function name params) inner rest).flatten) =
      inner.body.flatten := by
  have hpush : Surrounds (⟨index, .function, false⟩ :: stack) (index + 1) := h.push (by simp) false
  have hinner : gather (some index)
      (visits (index + 1) (⟨index, .function, false⟩ :: stack) inner.flatten) =
        inner.body.flatten :=
    gather_visits inner hpush
  have hend : Visit.home? ⟨index + 1 + inner.flatten.length, .endFunc,
      ⟨index, .function, false⟩ :: stack⟩ ≠ some (some index) := by
    simp [Visit.home?, Instr.isFunctionMark]
  have hrest : gather (some index)
      (visits (index + 1 + inner.flatten.length + 1) stack rest.flatten) = [] :=
    gather_some_visits_eq_nil rest h.before (Nat.le_refl _) (.inl (by omega))
  rw [visits_enclosed, gather_cons_of_ne (home?_ne h.before (Nat.le_refl _) _ _), gather_append]
  simp only [Opener.construct, Construct.last, hinner, gather_cons_of_ne hend, hrest,
    append_nil]

/-- **The functions that a tree declares** have the bodies of its routines. -/
theorem declared_visits (n : Nested) (h : Surrounds stack index)
    (hall : ∀ q, index ≤ q → q < index + n.flatten.length →
      gather (some q) all = gather (some q) (visits index stack n.flatten)) :
    declared all (visits index stack n.flatten) = n.routines.map Routine.function := by
  induction n generalizing index stack with
  | nil => rfl
  | plain i hi rest ih =>
    have hvisits : visits index stack (i :: rest.flatten) =
        ⟨index, i, stack⟩ :: visits (index + 1) stack rest.flatten :=
      visits_cons _ (nestingStep_of_isPlain hi)
    have hdeclares : Visit.declares? ⟨index, i, stack⟩ = none := by
      cases i with
      | funcDecl => cases hi.1
      | _ => rfl
    have hrest := ih (h.mono (Nat.le_succ index)) fun q hlow hhigh => by
      rw [hall q (by omega) (by simp only [Nested.flatten, length_cons]; omega),
        Nested.flatten, hvisits, gather_cons_of_ne (home?_ne h.before (by omega) _ _)]
    rw [Nested.flatten, hvisits, declared_cons_of_none hdeclares, hrest]
    rfl
  | enclosed opener inner rest ihinner ihrest =>
    have hlength : (Nested.enclosed opener inner rest).flatten.length =
        inner.flatten.length + 1 + rest.flatten.length + 1 := by
      simp only [Nested.flatten, length_cons, length_append]
      omega
    rw [hlength] at hall
    have hbefore : ∀ o ∈ (⟨index, opener.construct, false⟩ : Opened) :: stack,
        o.index < index + 1 :=
      forall_mem_cons.2 ⟨Nat.lt_succ_self _, (h.mono (Nat.le_succ _)).before⟩
    have hle : index ≤ index + 1 + inner.flatten.length + 1 := by omega
    have hinside (q : Nat) (hlow : index + 1 ≤ q) (hhigh : q < index + 1 + inner.flatten.length) :
        gather (some q) all = gather (some q)
          (visits (index + 1) (⟨index, opener.construct, false⟩ :: stack) inner.flatten) := by
      rw [hall q (by omega) (by omega), gather_some_enclosed _ _ _ h.before hlow,
        gather_some_visits_eq_nil rest h.before (by omega) (.inl (by omega)), append_nil]
    have hrest := ihrest (h.mono hle) fun q hlow hhigh => by
      rw [hall q (by omega) (by omega), gather_some_enclosed _ _ _ h.before (by omega),
        gather_some_visits_eq_nil inner hbefore (by omega) (.inr (by omega)), nil_append]
    rw [visits_enclosed]
    cases opener with
    | function name params =>
      have hself := (hall index (Nat.le_refl _) (by omega)).trans
        (gather_visits_function name params inner rest h)
      have hdeclares : Visit.declares? ⟨index, (Opener.function name params).first, stack⟩ =
          some (name, params) := by
        simp [Visit.declares?, Opener.first, h.outside]
      have hinner := ihinner (h.push (by simp [Opener.construct]) false) hinside
      rw [declared_cons_of_some hdeclares, declared_append, hinner, declared_cons_of_none rfl,
        hrest, hself, ← map_append]
      rfl
    | macroBody name =>
      rw [declared_cons_of_none rfl, declared_append,
        declared_visits_of_inMacro all inner (by simp [inMacro, Opener.construct]),
        declared_cons_of_none rfl, hrest, nil_append, Nested.routines]
    | conditional | loop | block =>
      rw [declared_cons_of_none rfl, declared_append,
        ihinner (h.push (by simp [Opener.construct]) false) hinside, declared_cons_of_none rfl,
        hrest, ← map_append]
      rfl
  | choice cond body other rest ihbody ihother ihrest =>
    have hlength : (Nested.choice cond body other rest).flatten.length =
        body.flatten.length + 1 + other.flatten.length + 1 + rest.flatten.length + 1 := by
      simp only [Nested.flatten, length_cons, length_append]
      omega
    rw [hlength] at hall
    have hpush (hasElse : Bool) : Surrounds (⟨index, .conditional, hasElse⟩ :: stack) (index + 1) :=
      h.push (by simp) hasElse
    have hle : index + 1 ≤ index + 1 + body.flatten.length + 1 := by omega
    have hle' : index ≤ index + 1 + body.flatten.length + 1 + other.flatten.length + 1 := by omega
    have hbody := ihbody (hpush false) fun q hlow hhigh => by
      rw [hall q (by omega) (by omega), gather_some_choice _ _ _ _ h.before hlow,
        gather_some_visits_eq_nil other (hpush true).before hlow (.inl (by omega)),
        gather_some_visits_eq_nil rest h.before (by omega) (.inl (by omega)), append_nil,
        append_nil]
    have hother := ihother ((hpush true).mono hle) fun q hlow hhigh => by
      rw [hall q (by omega) (by omega), gather_some_choice _ _ _ _ h.before (by omega),
        gather_some_visits_eq_nil body (hpush false).before (by omega) (.inr (by omega)),
        gather_some_visits_eq_nil rest h.before (by omega) (.inl (by omega)), append_nil,
        nil_append]
    have hrest := ihrest (h.mono hle') fun q hlow hhigh => by
      rw [hall q (by omega) (by omega), gather_some_choice _ _ _ _ h.before (by omega),
        gather_some_visits_eq_nil body (hpush false).before (by omega) (.inr (by omega)),
        gather_some_visits_eq_nil other (hpush true).before (by omega) (.inr (by omega)),
        nil_append, nil_append]
    rw [visits_choice, declared_cons_of_none rfl, declared_append, hbody, declared_cons_of_none rfl,
      declared_append, hother, declared_cons_of_none rfl, hrest, ← map_append,
      ← map_append]
    rfl

end Trees

end ImpMachine.Linear
