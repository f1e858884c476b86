import ImpMachine.Proofs.CallOrder
import Mathlib.Data.List.Chain
import Mathlib.Data.List.Nodup
import Mathlib.Logic.Relation

/-!
# Cycles of calls

Functions are the nodes of a graph with an edge for every call of a defined function, wherever the
call stands in the body (`CallEdge`). The search for recursion decides whether that graph has a
cycle (`checkRecursion_exact`). It succeeds only if calls raise the level of functions, which no
cycle can. It fails only with a cycle, since the functions being searched are at all times a path of
the graph (`CallPath`).
-/

namespace ImpMachine

open List

variable {name : String}

/-! ## The graph of calls -/

namespace Operand

/-- A call of the function stands somewhere in the operand. -/
inductive CallsIn (name : String) : Operand → Prop where
  | here (args : List Operand) : CallsIn name (.call name args)
  | argument {callee : String} {args : List Operand} {a : Operand} (hmem : a ∈ args)
      (h : CallsIn name a) : CallsIn name (.call callee args)
  | unary {op : UnaryOp} {operand : Operand} (h : CallsIn name operand) :
      CallsIn name (.unary op operand)
  | binaryLeft {op : BinaryOp} {lhs rhs : Operand} (h : CallsIn name lhs) :
      CallsIn name (.binary op lhs rhs)
  | binaryRight {op : BinaryOp} {lhs rhs : Operand} (h : CallsIn name rhs) :
      CallsIn name (.binary op lhs rhs)
  | logicalLeft {op : LogicalOp} {lhs rhs : Operand} (h : CallsIn name lhs) :
      CallsIn name (.logical op lhs rhs)
  | logicalRight {op : LogicalOp} {lhs rhs : Operand} (h : CallsIn name rhs) :
      CallsIn name (.logical op lhs rhs)

theorem CallsIn.mem_calls {o : Operand} (h : o.CallsIn name) : name ∈ o.calls := by
  induction h with
  | here args => exact mem_cons_self ..
  | argument hmem _ ih =>
    rw [calls, callsAll_eq_flatMap]
    exact mem_cons_of_mem _ (mem_flatMap.2 ⟨_, hmem, ih⟩)
  | unary _ ih => exact ih
  | binaryLeft _ ih | logicalLeft _ ih => exact mem_append_left _ ih
  | binaryRight _ ih | logicalRight _ ih => exact mem_append_right _ ih

theorem callsIn_of_mem_calls (o : Operand) (h : name ∈ o.calls) : o.CallsIn name := by
  induction o with
  | number | text | var => cases h
  | unary _ _ ih => exact .unary (ih h)
  | binary _ _ _ ihlhs ihrhs =>
    exact (mem_append.1 h).elim (fun h => .binaryLeft (ihlhs h)) fun h => .binaryRight (ihrhs h)
  | logical _ _ _ ihlhs ihrhs =>
    exact (mem_append.1 h).elim (fun h => .logicalLeft (ihlhs h))
      fun h => .logicalRight (ihrhs h)
  | call callee args ih =>
    rw [calls, callsAll_eq_flatMap] at h
    rcases mem_cons.1 h with rfl | h
    · exact .here args
    · obtain ⟨a, ha, h⟩ := mem_flatMap.1 h
      exact .argument ha (ih a ha h)

theorem mem_calls_iff {o : Operand} : name ∈ o.calls ↔ o.CallsIn name :=
  ⟨callsIn_of_mem_calls o, CallsIn.mem_calls⟩

end Operand

namespace Assembly

open Linear

variable {functions : List Function} {f : Function}

/-- One of the functions has the name. -/
def IsDefined (functions : List Function) (name : String) : Prop :=
  ∃ f ∈ functions, f.name = name

/-- The body calls the function, by a `CALL` or inside an operand. -/
def Function.HasCall (f : Function) (callee : String) : Prop :=
  ∃ i ∈ f.body, (∃ args, i = .call callee args) ∨ ∃ o ∈ i.operands, o.CallsIn callee

/-- A call from a function to a defined one, as an edge of the graph of calls. -/
def CallEdge (functions : List Function) (caller callee : String) : Prop :=
  ∃ f ∈ functions, f.name = caller ∧ f.HasCall callee ∧ IsDefined functions callee

/-- A cycle of the graph as a list, with one function at both ends and no other one twice. -/
def CallCycle (functions : List Function) (cycle : List String) : Prop :=
  ∃ first rest, cycle = first :: rest ++ [first] ∧ (first :: rest).Nodup ∧
    cycle.IsChain (CallEdge functions)

theorem mem_instrCalls_iff {i : Instr} {callee : String} :
    callee ∈ instrCalls i ↔
      (∃ args, i = .call callee args) ∨ ∃ o ∈ i.operands, o.CallsIn callee := by
  unfold instrCalls
  rw [mem_append, mem_flatMap]
  refine or_congr ?_ (exists_congr fun o => and_congr_right fun _ => Operand.mem_calls_iff)
  cases i with
  | call name args => simp [eq_comm]
  | _ => simp

theorem Function.mem_callees_iff {callee : String} : callee ∈ f.callees ↔ f.HasCall callee := by
  unfold Function.callees Function.HasCall
  simp only [mem_flatMap, mem_instrCalls_iff]

theorem isDefined_iff : IsDefined functions name ↔ (find? functions name).isSome := by
  simp [IsDefined, find?]

theorem isDefined_of_find? (h : find? functions name = some f) : IsDefined functions name :=
  isDefined_iff.2 (by rw [h]; rfl)

/-- With distinct names, every function is found by its own. -/
theorem find?_eq_some_of_mem (hdistinct : (functions.map Function.name).Nodup)
    (hf : f ∈ functions) : find? functions f.name = some f := by
  obtain ⟨g, hfind⟩ := Option.isSome_iff_exists.1 (isDefined_iff.1 ⟨f, hf, rfl⟩)
  have hname : g.name = f.name := by simpa using List.find?_some hfind
  have hsame : g = f :=
    inj_on_of_nodup_map hdistinct (mem_of_find?_eq_some hfind) hf hname
  rw [hfind, hsame]

/-! ## Success -/

/-- Where levels grow along calls, no path of calls comes back. -/
theorem acyclic_of_levels (level : String → Nat)
    (hedge : ∀ caller callee, CallEdge functions caller callee → level caller < level callee)
    (name : String) : ¬Relation.TransGen (CallEdge functions) name name := by
  have hpath : ∀ callee, Relation.TransGen (CallEdge functions) name callee →
      level name < level callee := by
    intro callee hreach
    induction hreach with
    | single hcall => exact hedge _ _ hcall
    | tail _ hcall ih => exact Nat.lt_trans ih (hedge _ _ hcall)
  exact fun hcycle => Nat.lt_irrefl _ (hpath name hcycle)

/-- Where the search succeeds, no function leads along calls to itself. -/
theorem acyclic_of_checkRecursion (hdistinct : (functions.map Function.name).Nodup)
    (h : checkRecursion functions = .ok ()) (name : String) :
    ¬Relation.TransGen (CallEdge functions) name name := by
  obtain ⟨level, hlevel⟩ := exists_level_of_checkRecursion h
  refine acyclic_of_levels level ?_ name
  rintro _ callee ⟨f, hf, rfl, hcall, hdefined⟩
  exact (hlevel f.name f (find?_eq_some_of_mem hdistinct hf)).2.2 callee
    (Function.mem_callees_iff.2 hcall) (isDefined_iff.1 hdefined)

/-- A cycle leads from the function that closes it to itself. -/
theorem CallCycle.transGen {cycle : List String} (h : CallCycle functions cycle) :
    ∃ name, Relation.TransGen (CallEdge functions) name name := by
  obtain ⟨first, rest, rfl, -, hchain⟩ := h
  refine ⟨first, ?_⟩
  -- the induction needs every function in front of the rest, not only the one that closes the cycle
  have hstart : ∀ caller, (caller :: rest ++ [first]).IsChain (CallEdge functions) →
      Relation.TransGen (CallEdge functions) caller first := by
    clear hchain
    induction rest with
    | nil => exact fun caller hchain => .single (isChain_pair.1 hchain)
    | cons next rest ih =>
      intro caller hchain
      obtain ⟨hcall, hrest⟩ := isChain_cons_cons.1 hchain
      exact .head hcall (ih next hrest)
  exact hstart first hchain

/-! ## Failure -/

/-- The functions being searched, innermost first, as a path of the graph. -/
structure CallPath (functions : List Function) (path : List String) : Prop where
  nodup : path.Nodup
  defined : ∀ name ∈ path, IsDefined functions name
  chain : path.IsChain fun callee caller => CallEdge functions caller callee

/-- The function searched last, if there is one, calls all of these that are defined. -/
def CallsFrom (functions : List Function) (path names : List String) : Prop :=
  ∀ caller ∈ path.head?, ∀ name ∈ names, IsDefined functions name → CallEdge functions caller name

namespace CallPath

variable {path : List String}

theorem cons (hpath : CallPath functions path) (hnew : name ∉ path)
    (hdefined : IsDefined functions name)
    (hcall : ∀ caller ∈ path.head?, CallEdge functions caller name) :
    CallPath functions (name :: path) where
  nodup := nodup_cons.2 ⟨hnew, hpath.nodup⟩
  defined := forall_mem_cons.2 ⟨hdefined, hpath.defined⟩
  chain := isChain_cons.2 ⟨hcall, hpath.chain⟩

/-- A call of a function on the path closes the cycle that is reported. -/
theorem callCycle (hpath : CallPath functions path) (hmem : name ∈ path)
    (hcall : ∀ caller ∈ path.head?, CallEdge functions caller name) :
    CallCycle functions (name :: (path.takeWhile (· != name)).reverse ++ [name]) := by
  obtain ⟨inner, outer, rfl, hinner⟩ := eq_append_cons_of_mem hmem
  have htake : (inner ++ name :: outer).takeWhile (· != name) = inner := by
    have hall : ∀ x ∈ inner, (x != name) = true := fun x hx =>
      bne_iff_ne.2 fun heq => hinner (heq ▸ hx)
    rw [takeWhile_append_of_pos hall, takeWhile_cons_of_neg (by simp),
      append_nil]
  rw [htake]
  refine ⟨name, inner.reverse, rfl, ?_, ?_⟩
  · have hdistinct : inner.Nodup := (nodup_append.1 hpath.nodup).1
    exact nodup_cons.2 ⟨by simpa using hinner, nodup_reverse.2 hdistinct⟩
  · -- the cycle read backwards is the path down to the function, behind the call that closes it
    have hclosed : (name :: (inner ++ name :: outer)).IsChain
        fun callee caller => CallEdge functions caller callee :=
      isChain_cons.2 ⟨hcall, hpath.chain⟩
    have hpart : name :: inner ++ [name] <+: name :: (inner ++ name :: outer) :=
      ⟨outer, by simp⟩
    have hsteps := List.IsChain.prefix hclosed hpart
    have hback : (name :: inner ++ [name]).reverse.IsChain (CallEdge functions) :=
      isChain_reverse.2 hsteps
    simpa using hback

end CallPath

mutual

/-- A search that fails reports a cycle of the graph. -/
theorem callCycle_of_visit {name : String} {path done : List String} {e : AssembleError}
    (h : visit functions name path done = .error e) (hpath : CallPath functions path)
    (hcalls : CallsFrom functions path [name]) :
    ∃ cycle, e = .recursion cycle ∧ CallCycle functions cycle := by
  have hcall : IsDefined functions name → ∀ caller ∈ path.head?, CallEdge functions caller name :=
    fun hdefined caller hcaller => hcalls caller hcaller name (mem_singleton_self _) hdefined
  rcases visit_cases functions name path done with
    ⟨hmem, heq⟩ | ⟨-, heq⟩ | ⟨f, hfind, hnew, -, heq⟩
  · rw [heq] at h
    cases h
    exact ⟨_, rfl, hpath.callCycle hmem (hcall (hpath.defined name hmem))⟩
  · rw [heq] at h
    cases h
  · have hless : offPath functions (name :: path) < offPath functions path :=
      offPath_cons_lt hfind (by simpa using hnew)
    cases hcallees : visitAll functions f.callees (name :: path) done with
    | error e' =>
      rw [heq, hcallees] at h
      cases h
      -- its callees are searched from a path that it was put on
      have hdefined := isDefined_of_find? hfind
      have hname : f.name = name := by simpa using List.find?_some hfind
      refine callCycle_of_visitAll hcallees (hpath.cons hnew hdefined (hcall hdefined)) ?_
      rintro _ ⟨⟩ callee hcallee hcallee_defined
      exact ⟨f, mem_of_find?_eq_some hfind, hname, Function.mem_callees_iff.1 hcallee,
        hcallee_defined⟩
    | ok done' =>
      rw [heq, hcallees] at h
      cases h
termination_by (offPath functions path, 0)
decreasing_by
  exact Prod.Lex.left _ _ hless

/-- A search that fails below the last function of the path reports a cycle. -/
theorem callCycle_of_visitAll {names path done : List String} {e : AssembleError}
    (h : visitAll functions names path done = .error e) (hpath : CallPath functions path)
    (hcalls : CallsFrom functions path names) :
    ∃ cycle, e = .recursion cycle ∧ CallCycle functions cycle := by
  cases hnames : names with
  | nil =>
    rw [hnames, visitAll] at h
    cases h
  | cons name rest =>
    rw [hnames] at hcalls
    rw [hnames, visitAll] at h
    split at h
    · rename_i e' hvisit
      cases h
      refine callCycle_of_visit hvisit hpath fun caller hcaller callee hcallee => ?_
      obtain rfl := mem_singleton.1 hcallee
      exact hcalls caller hcaller callee (mem_cons_self ..)
    · exact callCycle_of_visitAll h hpath fun caller hcaller callee hcallee =>
        hcalls caller hcaller callee (mem_cons_of_mem _ hcallee)
termination_by (offPath functions path, names.length + 1)
decreasing_by
  · exact Prod.Lex.right _ (Nat.succ_pos _)
  · exact Prod.Lex.right _ (by simp [hnames])

end

theorem callCycle_of_checkRecursion {e : AssembleError} (h : checkRecursion functions = .error e) :
    ∃ cycle, e = .recursion cycle ∧ CallCycle functions cycle := by
  unfold checkRecursion at h
  cases hvisit : visitAll functions (functions.map Function.name) [] [] with
  | error e' =>
    rw [hvisit] at h
    cases h
    exact callCycle_of_visitAll hvisit ⟨.nil, by simp, .nil⟩ (by simp [CallsFrom])
  | ok done =>
    rw [hvisit] at h
    cases h

/-- Where no function leads along calls to itself, the search succeeds. -/
theorem checkRecursion_of_acyclic (h : ∀ name, ¬Relation.TransGen (CallEdge functions) name name) :
    checkRecursion functions = .ok () := by
  cases hcheck : checkRecursion functions with
  | ok u => rfl
  | error e =>
    obtain ⟨cycle, -, hcycle⟩ := callCycle_of_checkRecursion hcheck
    obtain ⟨name, hname⟩ := hcycle.transGen
    exact absurd hname (h name)

/-- Where levels grow along calls, the search succeeds. -/
theorem checkRecursion_of_levels (level : String → Nat)
    (h : ∀ f ∈ functions, ∀ callee ∈ f.callees, level f.name < level callee) :
    checkRecursion functions = .ok () := by
  refine checkRecursion_of_acyclic (acyclic_of_levels level ?_)
  rintro _ callee ⟨f, hf, rfl, hcall, -⟩
  exact h f hf callee (Function.mem_callees_iff.2 hcall)

/-- **The check for recursion is exact.** Among functions with distinct names it succeeds just if
no function leads along calls to itself. Where it fails, it reports a cycle. -/
theorem checkRecursion_exact (functions : List Function)
    (hdistinct : (functions.map Function.name).Nodup) :
    (checkRecursion functions = .ok () ↔
        ∀ name, ¬Relation.TransGen (CallEdge functions) name name) ∧
      ∀ e, checkRecursion functions = .error e →
        ∃ cycle, e = .recursion cycle ∧ CallCycle functions cycle :=
  ⟨⟨acyclic_of_checkRecursion hdistinct, checkRecursion_of_acyclic⟩,
    fun _ => callCycle_of_checkRecursion⟩

/-- Two functions that call each other, one inside an argument, and a third that calls both and one
that is not defined. -/
def mutualCalls : List Function :=
  [⟨"start", ["n"], [.print (.call "log" [.var "n"]), .call "even" [.var "n"],
      .ret (.call "odd" [.var "n"])]⟩,
    ⟨"even", ["n"], [.ret (.unary .neg (.call "abs" [.call "odd" [.var "n"]]))]⟩,
    ⟨"odd", ["n"], [.call "even" [.var "n"], .ret (.var "n")]⟩]

theorem checkRecursion_mutualCalls :
    checkRecursion mutualCalls = .error (.recursion ["even", "odd", "even"]) := by
  have hclosed : visit mutualCalls "even" ["odd", "even", "start"] [] =
      .error (.recursion ["even", "odd", "even"]) := visit_of_contains_path (by decide)
  have hodd : visit mutualCalls "odd" ["even", "start"] [] =
      .error (.recursion ["even", "odd", "even"]) := by
    rw [visit_of_find?_eq_some (by decide) (by decide) rfl]
    change (visitAll mutualCalls ["even"] ["odd", "even", "start"] []).map _ = _
    rw [visitAll, hclosed]
    rfl
  have heven : visit mutualCalls "even" ["start"] [] =
      .error (.recursion ["even", "odd", "even"]) := by
    rw [visit_of_find?_eq_some (by decide) (by decide) rfl]
    change (visitAll mutualCalls ["abs", "odd"] ["even", "start"] []).map _ = _
    rw [visitAll, visit_of_find?_eq_none (by decide) rfl]
    dsimp only
    rw [visitAll, hodd]
    rfl
  have hstart : visit mutualCalls "start" [] [] = .error (.recursion ["even", "odd", "even"]) := by
    rw [visit_of_find?_eq_some (by decide) (by decide) rfl]
    change (visitAll mutualCalls ["log", "even", "odd"] ["start"] []).map _ = _
    rw [visitAll, visit_of_find?_eq_none (by decide) rfl]
    dsimp only
    rw [visitAll, heven]
    rfl
  change (visitAll mutualCalls ["start", "even", "odd"] [] []).map _ = _
  rw [visitAll, hstart]
  rfl

theorem checkRecursion_exact_mutualCalls :
    (mutualCalls.map Function.name).Nodup ∧
      checkRecursion mutualCalls = .error (.recursion ["even", "odd", "even"]) ∧
      CallCycle mutualCalls ["even", "odd", "even"] ∧
      ∃ name, Relation.TransGen (CallEdge mutualCalls) name name := by
  have hdistinct : (mutualCalls.map Function.name).Nodup := by decide
  obtain ⟨hok, herror⟩ := checkRecursion_exact mutualCalls hdistinct
  refine ⟨hdistinct, checkRecursion_mutualCalls, ?_, ?_⟩
  · obtain ⟨cycle, heq, hcycle⟩ := herror _ checkRecursion_mutualCalls
    cases heq
    exact hcycle
  · by_contra hnone
    have hpass := hok.2 (not_exists.1 hnone)
    rw [checkRecursion_mutualCalls] at hpass
    cases hpass

end Assembly

end ImpMachine
