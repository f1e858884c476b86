import ImpMachine.Assembly
import ImpMachine.Proofs.CallOrder
import ImpMachine.Proofs.Holding

/-!
# Other names for the same program

What assembly makes of a program when all names are replaced. Names are looked up and compared and
never taken apart, and the only names that are built are the qualified ones. So a map of texts that
keeps different texts different and goes through qualification (`Renaming`) goes through every step:
from renamed input and a renamed state the step fails if it failed before, and otherwise gives the
renamed result and state (`SideBySide`). The messages of errors have names in them and are not
compared.
-/

open List

namespace ImpMachine

variable {e : AssembleError}

/-! ## Renamed programs -/

namespace Operand

mutual

/-- The operand with its variables and functions renamed. -/
def rename (f : String → String) : Operand → Operand
  | .number n => .number n
  | .text s => .text s
  | .var name => .var (f name)
  | .binary op lhs rhs => .binary op (lhs.rename f) (rhs.rename f)
  | .unary op operand => .unary op (operand.rename f)
  | .logical op lhs rhs => .logical op (lhs.rename f) (rhs.rename f)
  | .call callee args => .call (f callee) (renameAll f args)

/-- Several operands, renamed. -/
def renameAll (f : String → String) : List Operand → List Operand
  | [] => []
  | a :: rest => a.rename f :: renameAll f rest

end

variable (f : String → String)

theorem renameAll_eq_map (args : List Operand) : renameAll f args = args.map (rename f) := by
  induction args with
  | nil => rfl
  | cons a args ih => rw [renameAll, ih, map_cons]

/-- The calls are renamed too. -/
theorem calls_rename (op : Operand) : (op.rename f).calls = op.calls.map f := by
  induction op with
  | number | text | var => rfl
  | binary _ _ _ ihlhs ihrhs | logical _ _ _ ihlhs ihrhs =>
    simp only [rename, calls, map_append, ihlhs, ihrhs]
  | unary _ _ ih => exact ih
  | call callee args ih =>
    simp only [rename, calls, map_cons, renameAll_eq_map, callsAll_eq_flatMap,
      flatMap_map, map_flatMap, flatMap_congr ih]

theorem number?_rename (op : Operand) : (op.rename f).number? = op.number? := by
  cases op <;> rfl

end Operand

namespace Linear

/-- The instruction with all its names renamed. -/
def Instr.rename (f : String → String) : Instr → Instr
  | .declare name value => .declare (f name) (value.rename f)
  | .assign name value => .assign (f name) (value.rename f)
  | .print value => .print (value.rename f)
  | .call callee args => .call (f callee) (args.map (·.rename f))
  | .funcDecl name params => .funcDecl (f name) (params.map f)
  | .ret value => .ret (value.rename f)
  | .ifBegin cond => .ifBegin (cond.rename f)
  | .whileBegin cond => .whileBegin (cond.rename f)
  | .expr value => .expr (value.rename f)
  | .macroDecl name => .macroDecl (f name)
  | i => i

variable (f : String → String)

theorem Instr.operands_rename (i : Instr) :
    (i.rename f).operands = i.operands.map (·.rename f) := by
  cases i <;> rfl

theorem nestingStep_rename (index : Nat) (stack : List Opened) (i : Instr) :
    nestingStep index stack (i.rename f) = nestingStep index stack i := by
  cases i <;> rfl

/-- Renaming keeps the nesting. -/
theorem nestingFrom_rename (index : Nat) (stack : List Opened) (code : List Instr) :
    nestingFrom index stack (code.map (·.rename f)) = nestingFrom index stack code := by
  induction code generalizing index stack with
  | nil => rfl
  | cons i code ih =>
    rw [map_cons, nestingFrom, nestingFrom, nestingStep_rename]
    cases nestingStep index stack i with
    | error e => rfl
    | ok stack => exact ih ..

/-- The nesting of code does not depend on names. -/
theorem checkNesting_rename (code : List Instr) :
    checkNesting (code.map (·.rename f)) = checkNesting code := by
  unfold checkNesting
  rw [nestingFrom_rename]

end Linear

/-- The error is one of assembly itself: code is misplaced, or an operand byte is not filled in. -/
def AssembleError.IsInternal : AssembleError → Prop
  | .misplaced .. | .unresolved _ => True
  | _ => False

/-- The error cannot stop the lowering of well-nested code: it is one of assembly itself or about
nesting. -/
def AssembleError.IsRuledOut : AssembleError → Prop
  | .misplaced .. | .unresolved _ | .unbalanced _ => True
  | _ => False

theorem AssembleError.IsInternal.isRuledOut (h : e.IsInternal) : e.IsRuledOut := by
  cases e with
  | misplaced | unresolved | unbalanced => trivial
  | _ => exact h

namespace Assembly

open Linear

/-- The function with its names renamed. -/
def Function.rename (f : String → String) (function : Function) : Function :=
  ⟨f function.name, function.params.map f, function.body.map (·.rename f)⟩

/-- The parts of a program, renamed. -/
def Parts.rename (f : String → String) (parts : Parts) : Parts :=
  ⟨parts.main.map (·.rename f), parts.functions.map (·.rename f)⟩

theorem splitStep_rename (f : String → String) (i : Instr) (stack : List Parts) :
    splitStep (i.rename f) (stack.map (·.rename f)) = (splitStep i stack).map (·.rename f) := by
  rcases stack with _ | ⟨inner, _ | ⟨parts, outer⟩⟩ <;> cases i <;>
    simp [splitStep, Instr.rename, Parts.rename, Parts.cons, Parts.declare, Parts.empty,
      Function.rename]

/-- **The parts of renamed code are the renamed parts.** -/
theorem split_rename (f : String → String) (code : List Instr) :
    split (code.map (·.rename f)) = (split code).rename f := by
  have hstack : (code.map (·.rename f)).foldr splitStep [.empty] =
      (code.foldr splitStep [.empty]).map (·.rename f) := by
    induction code with
    | nil => rfl
    | cons i code ih => rw [map_cons, foldr_cons, ih, splitStep_rename, foldr_cons]
  unfold split
  rw [hstack]
  cases code.foldr splitStep [.empty] <;> rfl

/-! ## Renamings -/

/-- A map of names that keeps different names different and goes through qualification. -/
structure Renaming where
  apply : String → String
  injective : ∀ a b, apply a = apply b → a = b
  apply_qualified : ∀ f x, apply (qualified f x) = qualified (apply f) (apply x)
  apply_returnName : apply returnName = returnName

instance : CoeFun Renaming fun _ => String → String := ⟨Renaming.apply⟩

variable (κ : Renaming)

/-- Different names stay different. -/
theorem Renaming.apply_inj {a b : String} : κ a = κ b ↔ a = b :=
  ⟨κ.injective a b, congrArg κ⟩

theorem Renaming.contains_map (names : List String) (name : String) :
    (names.map κ).contains (κ name) = names.contains name := by
  induction names with
  | nil => rfl
  | cons x names ih =>
    rw [map_cons, contains_cons, contains_cons, ih]
    congr 1
    rw [Bool.eq_iff_iff, beq_iff_eq, beq_iff_eq, κ.apply_inj]

/-- What a renamed table has for a renamed name. -/
theorem Renaming.lookup_map {α β : Type} (g : α → β) (table : List (String × α)) (name : String) :
    (table.map (Prod.map κ g)).lookup (κ name) = (table.lookup name).map g := by
  induction table with
  | nil => rfl
  | cons entry table ih =>
    obtain ⟨first, value⟩ := entry
    rw [map_cons, Prod.map_apply, lookup_cons, lookup_cons]
    by_cases h : name = first
    · have hκ : κ name = κ first := κ.apply_inj.2 h
      rw [beq_iff_eq.2 h, beq_iff_eq.2 hκ]
      rfl
    · have hκ : κ name ≠ κ first := fun hκ => h (κ.apply_inj.1 hκ)
      rw [beq_eq_false_iff_ne.2 h, beq_eq_false_iff_ne.2 hκ]
      exact ih

/-! ## Side by side -/

section SideBySide

variable {σ α β γ δ : Type} {strict : Prop} {R : α → β → Prop} {R' : γ → δ → Prop}
variable {S : α → β → Prop}

/-- Where there is a first result there is a related second one. What stops the first computation
stops the second, or else it is a fault of the program. -/
inductive Alike (strict : Prop) (R : α → β → Prop) :
    Except AssembleError α → Except AssembleError β → Prop
  | ok {a : α} {b : β} : R a b → Alike strict R (.ok a) (.ok b)
  | error {e : AssembleError} {y : Except AssembleError β} : (¬strict → ¬e.IsRuledOut) →
      (strict → ∃ e', y = .error e') → Alike strict R (.error e) y

/-- Both fail, or both succeed with related results. -/
abbrev Parallel (R : α → β → Prop) : Except AssembleError α → Except AssembleError β → Prop :=
  Alike True R

/-- Where both fail there is nothing to compare. -/
theorem Alike.both (e e' : AssembleError) : Alike True R (.error e) (.error e') :=
  .error (fun h => absurd trivial h) fun _ => ⟨e', rfl⟩

/-- One computation behind the other. -/
theorem Alike.bind {x : Except AssembleError α} {y : Except AssembleError β}
    {f : α → Except AssembleError γ} {g : β → Except AssembleError δ} (h : Alike strict R x y)
    (hf : ∀ a b, R a b → Alike strict R' (f a) (g b)) : Alike strict R' (x >>= f) (y >>= g) := by
  cases h with
  | ok hab => exact hf _ _ hab
  | error he hy =>
    refine .error he fun hstrict => ?_
    obtain ⟨e', rfl⟩ := hy hstrict
    exact ⟨e', rfl⟩

/-- A weaker relation may do. -/
theorem Alike.mono {x : Except AssembleError α} {y : Except AssembleError β}
    (h : Alike strict R x y) (hR : ∀ a b, x = .ok a → R a b → S a b) : Alike strict S x y := by
  cases h with
  | ok hab => exact .ok (hR _ _ rfl hab)
  | error he hy => exact .error he hy

/-- What is made of related results. -/
theorem Alike.map {x : Except AssembleError α} {y : Except AssembleError β} {f : α → γ} {g : β → δ}
    (h : Alike strict R x y) (hf : ∀ a b, R a b → R' (f a) (g b)) :
    Alike strict R' (x.map f) (y.map g) := by
  have hbind := h.bind (f := fun a => .ok (f a)) (g := fun b => .ok (g b))
    fun a b hab => .ok (hf a b hab)
  exact hbind

/-- From a state and from its image. -/
def SideBySide (strict : Prop) (g : σ → σ) (R : α → β → Prop)
    (x : StateT σ (Except AssembleError) α) (y : StateT σ (Except AssembleError) β) : Prop :=
  ∀ s, Alike strict (fun p q => R p.1 q.1 ∧ q.2 = g p.2) (x s) (y (g s))

namespace SideBySide

variable {g : σ → σ} {x : StateT σ (Except AssembleError) α}
  {y : StateT σ (Except AssembleError) β} {f : α → StateT σ (Except AssembleError) γ}
  {f' : β → StateT σ (Except AssembleError) δ}

/-- Related values. -/
theorem pure {a : α} {b : β} (h : R a b) :
    SideBySide strict g R (pure a : StateT σ (Except AssembleError) α) (pure b) :=
  fun _ => .ok ⟨h, rfl⟩

theorem throw (h : ¬e.IsRuledOut) (e' : AssembleError) :
    SideBySide strict g R (throw e : StateT σ (Except AssembleError) α) (throw e') :=
  fun _ => .error (fun _ => h) fun _ => ⟨e', rfl⟩

/-- The states themselves. -/
theorem get :
    SideBySide strict g (fun s t => t = g s) (get : StateT σ (Except AssembleError) σ) get :=
  fun _ => .ok ⟨rfl, rfl⟩

theorem modify {h h' : σ → σ} (hg : ∀ s, h' (g s) = g (h s)) :
    SideBySide strict g Eq (modify h : StateT σ (Except AssembleError) Unit) (modify h') :=
  fun s => .ok ⟨rfl, hg s⟩

/-- One computation behind the other. -/
theorem bind (h : SideBySide strict g R x y)
    (hf : ∀ a b, R a b → SideBySide strict g R' (f a) (f' b)) :
    SideBySide strict g R' (x >>= f) (y >>= f') :=
  fun s => (h s).bind fun p q hpq => by
    have hnext := hf p.1 q.1 hpq.1 p.2
    rw [← hpq.2] at hnext
    exact hnext

/-- The same behind results that are equal. -/
theorem bind_same {y : StateT σ (Except AssembleError) α}
    {f' : α → StateT σ (Except AssembleError) δ} (h : SideBySide strict g Eq x y)
    (hf : ∀ a, SideBySide strict g R' (f a) (f' a)) : SideBySide strict g R' (x >>= f) (y >>= f') :=
  h.bind fun a _ hab => hab ▸ hf a

/-- A weaker relation. -/
theorem mono (h : SideBySide strict g R x y) (hR : ∀ a b, R a b → S a b) :
    SideBySide strict g S x y :=
  fun s => (h s).mono fun p q _ hpq => ⟨hR p.1 q.1 hpq.1, hpq.2⟩

/-- A result of the first run has one of the second beside it. -/
theorem eq_ok (h : SideBySide strict g R x y) {s s' : σ} {a : α} (ha : x s = .ok (a, s')) :
    ∃ b, y (g s) = .ok (b, g s') ∧ R a b := by
  have hs := h s
  rw [ha] at hs
  generalize y (g s) = r at hs ⊢
  cases hs with
  | @ok _ q hR =>
    obtain ⟨b, t⟩ := q
    obtain ⟨hR, rfl⟩ := hR
    exact ⟨b, rfl, hR⟩

/-- What stops the computation is no error about nesting. -/
theorem not_isRuledOut (h : SideBySide False g R x y) {s : σ} (he : x s = .error e) :
    ¬e.IsRuledOut := by
  have hs := h s
  rw [he] at hs
  generalize y (g s) = r at hs
  cases hs with
  | error he _ => exact he id

end SideBySide

end SideBySide

/-! ## Checks of functions -/

/-- The signatures of renamed functions. -/
def Signatures.rename (f : String → String) (signatures : Signatures) : Signatures :=
  signatures.map (Prod.map f (List.map f))

/-- The signatures of renamed functions. -/
theorem parallel_signatures (functions : List Function) :
    Parallel (fun a b => b = a.rename κ) (signatures functions)
      (signatures (functions.map (·.rename κ))) := by
  suffices h : ∀ known : Signatures, Parallel (fun a b => b = Signatures.rename κ a)
      (signaturesFrom known functions)
      (signaturesFrom (known.rename κ) (functions.map (·.rename κ))) from h []
  induction functions with
  | nil => exact fun known => .ok rfl
  | cons f functions ih =>
    intro known
    have hlookup : ((known.rename κ).lookup (f.rename κ).name).isSome =
        (known.lookup f.name).isSome := by
      rw [Signatures.rename, Function.rename, κ.lookup_map, Option.isSome_map]
    rw [map_cons, signaturesFrom, signaturesFrom, hlookup]
    split
    · exact .both _ _
    · have hnext := ih (known ++ [(f.name, f.params)])
      rw [Signatures.rename, map_append] at hnext
      exact hnext

theorem instrCalls_rename (i : Instr) : instrCalls (i.rename κ) = (instrCalls i).map κ := by
  have hoperands : (i.rename κ).operands.flatMap Operand.calls =
      (i.operands.flatMap Operand.calls).map κ := by
    rw [Instr.operands_rename, flatMap_map, map_flatMap]
    congr 1
    funext op
    exact op.calls_rename κ
  unfold instrCalls
  rw [hoperands, map_append]
  cases i <;> rfl

theorem callees_rename (f : Function) : (f.rename κ).callees = f.callees.map κ := by
  unfold Function.callees Function.rename
  rw [flatMap_map, map_flatMap]
  congr 1
  funext i
  exact instrCalls_rename κ i

theorem find?_rename (functions : List Function) (name : String) :
    find? (functions.map (·.rename κ)) (κ name) = (find? functions name).map (·.rename κ) := by
  unfold find?
  rw [List.find?_map]
  congr 2
  funext f
  change (κ f.name == κ name) = (f.name == name)
  rw [Bool.eq_iff_iff, beq_iff_eq, beq_iff_eq, κ.apply_inj]

mutual

/-- The search of the renamed calls finds a cycle where the search found one. -/
theorem parallel_visit (functions : List Function) (name : String) (path done : List String) :
    Parallel (fun a b => b = a.map κ) (visit functions name path done)
      (visit (functions.map (·.rename κ)) (κ name) (path.map κ) (done.map κ)) := by
  have hpath' := κ.contains_map path name
  have hdone' := κ.contains_map done name
  have hfind' := find?_rename κ functions name
  cases hpath : path.contains name with
  | true =>
    rw [visit_of_contains_path hpath, visit_of_contains_path (hpath'.trans hpath)]
    exact .both _ _
  | false =>
    rw [hpath] at hpath'
    cases hfind : find? functions name with
    | none =>
      rw [hfind] at hfind'
      rw [visit_of_find?_eq_none hpath hfind, visit_of_find?_eq_none hpath' hfind']
      exact .ok rfl
    | some f =>
      rw [hfind] at hfind'
      cases hdone : done.contains name with
      | true =>
        rw [visit_of_contains_done hpath hdone, visit_of_contains_done hpath' (hdone'.trans hdone)]
        exact .ok rfl
      | false =>
        rw [hdone] at hdone'
        have hless : offPath functions (name :: path) < offPath functions path :=
          offPath_cons_lt hfind hpath
        have hcallees := parallel_visitAll functions f.callees (name :: path) done
        rw [visit_of_find?_eq_some hpath hdone hfind, visit_of_find?_eq_some hpath' hdone' hfind',
          callees_rename]
        exact hcallees.map fun a b hab => by rw [hab, map_cons]
termination_by (offPath functions path, 0)
decreasing_by
  exact Prod.Lex.left _ _ hless

theorem parallel_visitAll (functions : List Function) (names path done : List String) :
    Parallel (fun a b => b = a.map κ) (visitAll functions names path done)
      (visitAll (functions.map (·.rename κ)) (names.map κ) (path.map κ) (done.map κ)) := by
  cases hnames : names with
  | nil =>
    rw [map_nil, visitAll, visitAll]
    exact .ok rfl
  | cons name rest =>
    have hfirst := parallel_visit functions name path done
    rw [map_cons, visitAll, visitAll]
    generalize visit functions name path done = x at hfirst
    generalize visit (functions.map (·.rename κ)) (κ name) (path.map κ) (done.map κ) = y at hfirst
    cases hfirst with
    | error _ hy =>
      obtain ⟨e', rfl⟩ := hy trivial
      exact .both _ e'
    | ok hdone =>
      rw [hdone]
      exact parallel_visitAll functions rest path _
termination_by (offPath functions path, names.length + 1)
decreasing_by
  · exact Prod.Lex.right _ (Nat.succ_pos _)
  · exact Prod.Lex.right _ (by simp)

end

/-- **Recursion is found under all names alike.** -/
theorem parallel_checkRecursion (functions : List Function) :
    Parallel Eq (checkRecursion functions) (checkRecursion (functions.map (·.rename κ))) := by
  have hnames : (functions.map (·.rename κ)).map (·.name) = (functions.map (·.name)).map κ := by
    rw [map_map, map_map]
    rfl
  have h := parallel_visitAll κ functions (functions.map (·.name)) [] []
  unfold checkRecursion
  rw [hnames]
  exact h.map fun _ _ _ => rfl

end Assembly

/-! ## Registers -/

/-- The holder with its name renamed. -/
def Holder.rename (f : String → String) : Holder → Holder
  | .named name => .named (f name)
  | .temporary => .temporary
  | .reserved => .reserved

namespace RegisterMap

open Assembly (Renaming)

/-- The map with all names renamed. -/
def rename (f : String → String) (m : RegisterMap) : RegisterMap :=
  ⟨m.holders.map (Option.map (Holder.rename f)), m.frames.map (List.map f), m.touched⟩

section Steps

variable (f : String → String) (m : RegisterMap)

theorem find?_rename {c c' : Option Holder → Bool}
    (h : ∀ o : Option Holder, c' (o.map (Holder.rename f)) = c o) :
    (m.rename f).find? c' = m.find? c := by
  unfold find? rename
  congr 1
  funext r
  rw [Fin.getElem_fin, Vector.getElem_map]
  exact h _

theorem firstFree?_rename : (m.rename f).firstFree? = m.firstFree? :=
  m.find?_rename f fun _ => Option.isNone_map

theorem take_rename (r : Register) (holder : Holder) :
    (m.rename f).take r (holder.rename f) = (m.take r holder).rename f := by
  unfold take rename
  rw [Vector.map_set]
  rfl

theorem free_rename (r : Register) : (m.rename f).free r = (m.free r).rename f := by
  unfold free rename
  rw [Vector.map_set]
  rfl

theorem noteInFrame_rename (name : String) :
    (m.rename f).noteInFrame (f name) = (m.noteInFrame name).rename f := by
  obtain ⟨holders, _ | ⟨frame, outer⟩, touched⟩ := m <;> rfl

theorem release_rename (number : Nat) :
    (m.rename f).release number = (m.release number).rename f := by
  unfold release
  split
  · rename_i hnumber
    have hholder : getElem (m.rename f).holders number hnumber = some .temporary ↔
        getElem m.holders number hnumber = some .temporary := by
      unfold rename
      rw [Vector.getElem_map]
      rcases getElem m.holders number hnumber with _ | _ | _ | _ <;> simp [Holder.rename]
    rw [free_rename]
    split
    · rename_i h
      rw [if_pos (hholder.1 h)]
    · rename_i h
      rw [if_neg fun h' => h (hholder.2 h')]
  · rfl

theorem releaseAll_rename (numbers : List Nat) :
    (m.rename f).releaseAll numbers = (m.releaseAll numbers).rename f := by
  unfold releaseAll
  induction numbers generalizing m with
  | nil => rfl
  | cons number numbers ih => rw [foldl_cons, release_rename, ih, foldl_cons]

theorem pushScope_rename : (m.rename f).pushScope = m.pushScope.rename f := rfl

theorem resetTouched_rename : (m.rename f).resetTouched = m.resetTouched.rename f := rfl

/-- Renaming keeps which registers are in use. -/
theorem reserveTouched_rename : (m.rename f).reserveTouched = m.reserveTouched.rename f := by
  have hholders : (Vector.ofFn fun r : Register =>
      if m.touched[r] && (m.rename f).holders[r].isNone then some .reserved
      else (m.rename f).holders[r]) =
      (Vector.ofFn fun r : Register =>
        if m.touched[r] && m.holders[r].isNone then some .reserved
        else m.holders[r]).map (Option.map (Holder.rename f)) := by
    ext1 r hr
    simp only [rename, Vector.getElem_ofFn, Vector.getElem_map, Fin.getElem_fin, Option.isNone_map]
    split <;> rfl
  unfold reserveTouched
  rw [RegisterMap.mk.injEq]
  exact ⟨hholders, rfl, rfl⟩

end Steps

variable (κ : Renaming) (m : RegisterMap)

/-- A renamed name has the register that the name had. -/
theorem lookup_rename (name : String) : (m.rename κ).lookup (κ name) = m.lookup name := by
  refine m.find?_rename κ fun o => ?_
  rcases o with _ | name' | _ | _
  · rfl
  · rw [Bool.eq_iff_iff, beq_iff_eq, beq_iff_eq]
    simp [Holder.rename, κ.apply_inj]
  · rfl
  · rfl

theorem unbind_rename (name : String) :
    (m.rename κ).unbind (κ name) = (m.unbind name).rename κ := by
  unfold unbind
  rw [lookup_rename]
  cases m.lookup name with
  | none => rfl
  | some r => exact m.free_rename κ r

/-- Closing a block of renamed names. -/
theorem popScope_rename : (m.rename κ).popScope = m.popScope.rename κ := by
  obtain ⟨holders, _ | ⟨frame, outer⟩, touched⟩ := m
  · rfl
  · suffices h : ∀ m : RegisterMap,
        (frame.map κ).foldl unbind (m.rename κ) = (frame.foldl unbind m).rename κ from
      h ⟨holders, outer, touched⟩
    induction frame with
    | nil => exact fun m => rfl
    | cons name frame ih =>
      intro m
      rw [map_cons, foldl_cons, foldl_cons, unbind_rename]
      exact ih _

end RegisterMap

namespace Assembly

open Linear

/-! ## Environments -/

/-- The scope with its names renamed. -/
def Scope.rename (f : String → String) (scope : Scope) : Scope :=
  ⟨f scope.function, scope.locals.map f⟩

/-- The table of renamed functions. -/
def FunctionTable.rename (f : String → String) (table : FunctionTable) : FunctionTable :=
  ⟨table.signatures.rename f, table.addresses.map (Prod.map f id)⟩

/-- Keys in a renamed scope are renamed. -/
theorem key_rename (κ : Renaming) {env env' : Environment}
    (h : env'.scope = env.scope.map (Scope.rename κ)) (name : String) :
    env'.key (κ name) = κ (env.key name) := by
  unfold Environment.key
  rw [h]
  cases env.scope with
  | none => rfl
  | some scope =>
    unfold Scope.rename
    dsimp only [Option.map_some]
    rw [κ.contains_map]
    split
    · rw [κ.apply_qualified]
    · rfl

/-- The test of a renamed loop. -/
def LoopTest.rename (f : String → String) : LoopTest → LoopTest
  | .variable r => .variable r
  | .computed r condition => .computed r (condition.rename f)

theorem register_rename (f : String → String) (test : LoopTest) :
    (test.rename f).register = test.register := by
  cases test <;> rfl

/-- The bindings with all names renamed. -/
def Bindings.rename (f : String → String) (b : Bindings) : Bindings :=
  ⟨b.registers.rename f, b.scope.map (Scope.rename f)⟩

end Assembly

namespace Linear

/-- Renaming makes no marks. -/
theorem Instr.IsPlain.rename {i : Instr} (h : i.IsPlain) (f : String → String) :
    (i.rename f).IsPlain := by
  cases i with
  | elseMark => exact absurd rfl h.2.2
  | funcDecl | ifBegin | whileBegin | blockStart | macroDecl => cases h.1
  | endFunc | endIf | endWhile | blockEnd | endMacro => cases h.2.1
  | _ => exact ⟨rfl, rfl, by simp [Instr.rename]⟩

/-- The body with all its names renamed. -/
def Body.rename (f : String → String) : Body → Body
  | .nil => .nil
  | .plain i h rest => .plain (i.rename f) (h.rename f) (rest.rename f)
  | .conditional cond body rest => .conditional (cond.rename f) (body.rename f) (rest.rename f)
  | .choice cond body other rest =>
    .choice (cond.rename f) (body.rename f) (other.rename f) (rest.rename f)
  | .loop cond body rest => .loop (cond.rename f) (body.rename f) (rest.rename f)
  | .block body rest => .block (body.rename f) (rest.rename f)

/-- A renamed tree is written out as renamed code. -/
theorem Body.flatten_rename (f : String → String) (body : Body) :
    (body.rename f).flatten = body.flatten.map (·.rename f) := by
  induction body <;> simp [rename, flatten, Instr.rename, *]

end Linear

/-! ## No renaming -/

/-- All names stay. -/
def Assembly.sameNames : Renaming := ⟨fun x => x, fun _ _ => id, fun _ _ => rfl, rfl⟩

open Assembly

theorem Assembly.sameNames_eq : (sameNames : String → String) = id := rfl

theorem Operand.rename_id (e : Operand) : e.rename id = e := by
  induction e with
  | number | text | var => rfl
  | binary _ _ _ ihlhs ihrhs | logical _ _ _ ihlhs ihrhs => rw [Operand.rename, ihlhs, ihrhs]
  | unary _ _ ih => rw [Operand.rename, ih]
  | call callee args ih =>
    rw [Operand.rename, Operand.renameAll_eq_map, map_congr_left ih, map_id']
    rfl

theorem Linear.Instr.rename_id (i : Linear.Instr) : i.rename id = i := by
  cases i <;> simp [rename, Operand.rename_id]

theorem Linear.Body.rename_id (body : Linear.Body) : body.rename id = body := by
  induction body <;> simp [rename, Operand.rename_id, Instr.rename_id, *]

namespace Assembly

theorem Signatures.rename_id (signatures : Signatures) : signatures.rename id = signatures := by
  simp [Signatures.rename]

theorem Scope.rename_id (scope : Option Scope) : scope.map (Scope.rename id) = scope := by
  cases scope <;> simp [Scope.rename]

theorem Bindings.rename_id (b : Bindings) : b.rename id = b := by
  have hholder : Holder.rename id = id := funext fun holder => by cases holder <;> rfl
  obtain ⟨⟨holders, frames, touched⟩, scope⟩ := b
  unfold Bindings.rename RegisterMap.rename
  rw [Scope.rename_id, hholder]
  simp

end Assembly

end ImpMachine
