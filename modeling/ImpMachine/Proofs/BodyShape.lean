import ImpMachine.Proofs.Correspondence
import ImpMachine.Proofs.Splitting

/-!
# The shape of a body

The code of an operand is a shape: straight code, the inline conditionals of the choices, and calls.
A call goes to the address of a function that the operand mentions, or else it waits for a function
that has no address (`Formed`). So the draft of a body has a shape whose calls go to functions that
the body mentions, unless a call waits (`formed_draft`). The code of a function ends in a return at
its outermost level, whether its body has one there or one is added (`formed_routine`).
-/

open List

namespace ImpMachine

open Assembly Linear

variable {callee : String} {site : CallSite} {table : FunctionTable} {calls : List String}

/-! ## The functions called -/

/-- The callees are those of the call sites. -/
theorem Operand.mem_calls_iff_callSites (e : Operand) :
    callee ∈ e.calls ↔ ∃ site ∈ e.callSites, site.callee = callee := by
  induction e with
  | number | text | var => simp [Operand.calls, Operand.callSites]
  | binary _ _ _ ihlhs ihrhs | logical _ _ _ ihlhs ihrhs =>
    simp only [Operand.calls, Operand.callSites, mem_append, or_and_right, exists_or, ihlhs,
      ihrhs]
  | unary _ _ ih => exact ih
  | call name args ih =>
    simp only [Operand.calls, Operand.callSites, Operand.callsAll_eq_flatMap,
      Operand.callSitesAll_eq_flatMap, mem_cons, mem_append, mem_flatMap,
      not_mem_nil, or_false]
    constructor
    · rintro (rfl | ⟨a, ha, hcallee⟩)
      · exact ⟨_, .inr rfl, rfl⟩
      · obtain ⟨site, hsite, rfl⟩ := (ih a ha).1 hcallee
        exact ⟨site, .inl ⟨a, ha, hsite⟩, rfl⟩
    · rintro ⟨site, ⟨a, ha, hsite⟩ | rfl, rfl⟩
      · exact .inr ⟨a, ha, (ih a ha).2 ⟨site, hsite, rfl⟩⟩
      · exact .inl rfl

theorem Operand.mem_calls_of_mem_callSites (e : Operand)
    (h : site ∈ e.callSites) : site.callee ∈ e.calls :=
  e.mem_calls_iff_callSites.2 ⟨site, h, rfl⟩

theorem Linear.Instr.mem_calls_iff_callSites {i : Instr} :
    callee ∈ instrCalls i ↔ ∃ site ∈ i.callSites, site.callee = callee := by
  have hoperands : callee ∈ i.operands.flatMap Operand.calls ↔
      ∃ site ∈ i.operands.flatMap Operand.callSites, site.callee = callee := by
    simp only [mem_flatMap, Operand.mem_calls_iff_callSites]
    exact ⟨fun ⟨e, he, site, hsite, h⟩ => ⟨site, ⟨e, he, hsite⟩, h⟩,
      fun ⟨site, ⟨e, he, hsite⟩, h⟩ => ⟨e, he, site, hsite, h⟩⟩
  simp only [instrCalls, callSites, mem_append, or_and_right, exists_or, hoperands]
  rw [or_comm]
  cases i <;> simp [eq_comm]

/-- The callees of a body are those of its call sites. -/
theorem Linear.Body.mem_calls_of_mem_callSites {body : Body}
    (h : site ∈ body.callSites) : site.callee ∈ body.flatten.flatMap instrCalls := by
  have hcond {cond : Operand} (h : site ∈ cond.callSites) :
      site.callee ∈ instrCalls (.ifBegin cond) ∧ site.callee ∈ instrCalls (.whileBegin cond) := by
    simpa [instrCalls, Instr.operands] using cond.mem_calls_of_mem_callSites h
  induction body with
  | nil => cases h
  | plain i hi rest ih =>
    simp only [callSites, flatten, flatMap_cons, mem_append] at h ⊢
    exact h.imp (fun h => Instr.mem_calls_iff_callSites.2 ⟨site, h, rfl⟩) ih
  | conditional cond body rest ihbody ihrest =>
    simp only [callSites, flatten, flatMap_cons, flatMap_append, mem_append] at h ⊢
    exact h.imp (fun h => (hcond h).1) fun h => h.imp ihbody fun h => .inr (ihrest h)
  | choice cond body other rest ihbody ihother ihrest =>
    simp only [callSites, flatten, flatMap_cons, flatMap_append, mem_append] at h ⊢
    exact h.imp (fun h => (hcond h).1) fun h => h.imp ihbody fun h =>
      .inr (h.imp ihother fun h => .inr (ihrest h))
  | loop cond body rest ihbody ihrest =>
    simp only [callSites, flatten, flatMap_cons, flatMap_append, mem_append] at h ⊢
    rcases h with h | (h | h) | h
    · exact .inl (hcond h).2
    · exact .inr (.inl (ihbody h))
    · exact .inl (hcond h).2
    · exact .inr (.inr (.inr (ihrest h)))
  | block body rest ihbody ihrest =>
    simp only [callSites, flatten, flatMap_cons, flatMap_append, mem_append] at h ⊢
    exact .inr (h.imp ihbody fun h => .inr (ihrest h))

namespace Assembly

/-! ## Formed code -/

variable {p q : List Piece}

/-- The instruction is valid and no stop, and a call goes to the address of one of the functions. -/
def Lawful (table : FunctionTable) (calls : List String) (i : Instruction) : Prop :=
  (i.Valid ∧ i ≠ .halt) ∧ ∀ addr, i = .call addr →
    ∃ callee ∈ calls, table.addresses.lookup callee = some addr.toNat

/-- Some call waits for a function that has no address. -/
def Waits (table : FunctionTable) (pieces : List Piece) : Prop :=
  ∃ callee, table.addresses.lookup callee = none ∧ ⟨.call 0, some (.call callee)⟩ ∈ pieces

/-- The code is a shape whose calls go to the given functions, unless a call waits. -/
def Formed (table : FunctionTable) (calls : List String) (pieces : List Piece) : Prop :=
  (∃ s : Shape, pieces = plain s.instructions ∧ s.Fits ∧ s.All (Lawful table calls)) ∨
    Waits table pieces

theorem waits_append : Waits table (p ++ q) ↔ Waits table p ∨ Waits table q := by
  simp [Waits, and_or_left, exists_or]

theorem lawful_of_isSimple {i : Instruction} (h : i.IsSimple) : Lawful table calls i := by
  refine ⟨⟨h.1, ?_⟩, ?_⟩
  · rintro rfl
    exact h.2
  · rintro addr rfl
    exact h.2.elim

namespace Formed

/-- Formed code behind formed code. -/
theorem append (hp : Formed table calls p) (hq : Formed table calls q) :
    Formed table calls (p ++ q) := by
  rcases hp with ⟨s, rfl, hsfits, hsall⟩ | hwaits
  · rcases hq with ⟨t, rfl, htfits, htall⟩ | hwaits
    · refine .inl ⟨s.append t, ?_, Shape.fits_append.2 ⟨hsfits, htfits⟩,
        Shape.all_append.2 ⟨hsall, htall⟩⟩
      simp [plain, Shape.instructions_append]
    · exact .inr (waits_append.2 (.inr hwaits))
  · exact .inr (waits_append.2 (.inl hwaits))

/-- Shaped code is formed. -/
theorem ofShaped {is : List Instruction} (h : Shaped is) : Formed table calls (plain is) := by
  obtain ⟨s, rfl, hfits, hall⟩ := h
  exact .inl ⟨s, rfl, hfits, hall.mono fun _ => lawful_of_isSimple⟩

theorem nil : Formed table calls [] := .inl ⟨.nil, rfl, trivial, trivial⟩

end Formed

theorem formed_callPiece {env : Environment} {piece : Piece} (h : callPiece env callee = .ok piece)
    (hmem : callee ∈ calls) : Formed env.toFunctionTable calls [piece] := by
  unfold callPiece at h
  split at h
  · rename_i hlookup
    cases h
    exact .inr ⟨callee, hlookup, mem_singleton_self _⟩
  · rename_i address hlookup
    split at h
    · cases h
    · rename_i hle
      cases h
      refine .inl ⟨.plain (.call (UInt8.ofNat address)) trivial .nil, rfl, trivial,
        ⟨⟨trivial, nofun⟩, ?_⟩, trivial⟩
      rintro addr ⟨⟩
      exact ⟨callee, hmem, by rw [hlookup, toNat_ofNat_of_le (Nat.le_of_not_lt hle)]⟩

/-- Formed code as a relation between two runs that are one. -/
theorem formedRelation (env : Environment) (calls : List String) :
    CodeRelation sameNames False env env fun sites p _ =>
      (∀ site ∈ sites, site.callee ∈ calls) → Formed env.toFunctionTable calls p where
  scope_eq := (Scope.rename_id env.scope).symm
  signatures_eq := (Signatures.rename_id env.signatures).symm
  append hp hq hsites :=
    (hp fun site h => hsites site (mem_append_left _ h)).append
      (hq fun site h => hsites site (mem_append_right _ h))
  shaped h _ := .ofShaped h
  call _ _ _ hpiece := ⟨_, hpiece, fun hsites =>
    formed_callPiece hpiece (hsites _ (mem_append_right _ (mem_singleton_self _)))⟩
  far _ h := h.elim

section Operands

variable (env : Environment) {e : Operand} (h : ∀ c ∈ e.calls, c ∈ calls)
include h

/-- An operand loaded into a temporary. -/
theorem formed_viaTemporary :
    Yields (viaTemporary (load env e)) fun f => Formed env.toFunctionTable calls f.code :=
  (keeps_viaTemporary (keeps_load (formedRelation env calls) e)).yields fun _ _ hp =>
    hp.code fun _ hsite => h _ (e.mem_calls_of_mem_callSites hsite)

/-- An operand fetched for use. -/
theorem formed_fetch :
    Yields (fetch env e (load env e)) fun f => Formed env.toFunctionTable calls f.code :=
  (keeps_fetch (formedRelation env calls) e (keeps_load (formedRelation env calls) e)).yields
    fun _ _ hp => hp.1.code fun _ hsite => h _ (e.mem_calls_of_mem_callSites hsite)

end Operands

/-- Arguments loaded into temporaries. -/
theorem formed_loadTemporaries (env : Environment) {args : List Operand}
    (h : ∀ c ∈ Operand.callsAll args, c ∈ calls) :
    Yields (loadTemporaries (loads env args)) fun fs =>
      Formed env.toFunctionTable calls (fs.flatMap (·.code)) := by
  refine (keeps_loadTemporaries (formedRelation env calls)
    (keeps_loads (formedRelation env calls) args)).yields fun fs _ hfs => hfs.2 ?_
  intro site hsite
  obtain ⟨e, he, hsite⟩ := mem_flatMap.1 hsite
  rw [Operand.callsAll_eq_flatMap] at h
  exact h _ (mem_flatMap.2 ⟨e, he, e.mem_calls_of_mem_callSites hsite⟩)

/-! ## Formed drafts -/

namespace Draft

/-- The pieces of a draft without the marks of its constructs. -/
def leaves : Draft → List Piece
  | .nil => []
  | .code pieces rest => pieces ++ rest.leaves
  | .conditional _ body rest | .loop _ body rest => body.leaves ++ rest.leaves
  | .choice _ body other rest => body.leaves ++ (other.leaves ++ rest.leaves)

/-- The code of a draft, part by part. -/
theorem leaves_append (d e : Draft) : (d.append e).leaves = d.leaves ++ e.leaves := by
  induction d with
  | nil => rfl
  | code pieces rest ih | conditional test body rest _ ih | choice test body other rest _ _ ih
  | loop test body rest _ ih =>
    simp [append, leaves, ih]

/-- The code of a draft is among its pieces. -/
theorem mem_pieces_of_mem_leaves {d : Draft} {p : Piece} (h : p ∈ d.leaves) (first : Nat) :
    p ∈ d.pieces first := by
  induction d generalizing first with
  | nil => cases h
  | code pieces rest ih =>
    rcases mem_append.1 h with h | h
    · exact mem_append_left _ h
    · exact mem_append_right _ (ih h first)
  | conditional test body rest ihbody ihrest | loop test body rest ihbody ihrest =>
    simp only [pieces, mem_cons, mem_append]
    rcases mem_append.1 h with h | h
    · exact .inr (.inl (ihbody h _))
    · exact .inr (.inr (.inr (ihrest h _)))
  | choice test body other rest ihbody ihother ihrest =>
    simp only [pieces, mem_cons, mem_append]
    simp only [leaves, mem_append] at h
    rcases h with h | h | h
    · exact .inr (.inl (ihbody h _))
    · exact .inr (.inr (.inr (.inl (ihother h _))))
    · exact .inr (.inr (.inr (.inr (.inr (ihrest h _)))))

/-- The draft has a shape whose calls go to the given functions, unless a call waits. -/
def Formed (table : FunctionTable) (calls : List String) (d : Draft) : Prop :=
  (∃ s : Shape, d.HasShape s ∧ s.All (Lawful table calls)) ∨ Waits table d.leaves

namespace Formed

variable {pieces : List Piece} {test : Register} {body other rest d e : Draft}

theorem nil : Draft.nil.Formed table calls := .inl ⟨.nil, .nil, trivial⟩

theorem code (hpieces : Assembly.Formed table calls pieces) (hrest : rest.Formed table calls) :
    (Draft.code pieces rest).Formed table calls := by
  rcases hpieces with ⟨t, rfl, hfits, hall⟩ | hwaits
  · rcases hrest with ⟨s, hs, hsall⟩ | hwaits
    · exact .inl ⟨t.append s, .code hfits hs, Shape.all_append.2 ⟨hall, hsall⟩⟩
    · exact .inr (waits_append.2 (.inr hwaits))
  · exact .inr (waits_append.2 (.inl hwaits))

theorem conditional (hbody : body.Formed table calls) (hrest : rest.Formed table calls) :
    (Draft.conditional test body rest).Formed table calls := by
  rcases hbody with ⟨b, hb, hball⟩ | hwaits
  · rcases hrest with ⟨s, hs, hsall⟩ | hwaits
    · exact .inl ⟨.conditional test b s, .conditional hb hs, ⟨hball, hsall⟩⟩
    · exact .inr (waits_append.2 (.inr hwaits))
  · exact .inr (waits_append.2 (.inl hwaits))

theorem choice (hbody : body.Formed table calls) (hother : other.Formed table calls)
    (hrest : rest.Formed table calls) : (Draft.choice test body other rest).Formed table calls := by
  rcases hbody with ⟨b, hb, hball⟩ | hwaits
  · rcases hother with ⟨o, ho, hoall⟩ | hwaits
    · rcases hrest with ⟨s, hs, hsall⟩ | hwaits
      · exact .inl ⟨.choice test b o s, .choice hb ho hs, ⟨hball, hoall, hsall⟩⟩
      · exact .inr (waits_append.2 (.inr (waits_append.2 (.inr hwaits))))
    · exact .inr (waits_append.2 (.inr (waits_append.2 (.inl hwaits))))
  · exact .inr (waits_append.2 (.inl hwaits))

theorem loop (hbody : body.Formed table calls) (hrest : rest.Formed table calls) :
    (Draft.loop test body rest).Formed table calls := by
  rcases hbody with ⟨b, hb, hball⟩ | hwaits
  · rcases hrest with ⟨s, hs, hsall⟩ | hwaits
    · exact .inl ⟨.loop test b s, .loop hb hs, ⟨hball, hsall⟩⟩
    · exact .inr (waits_append.2 (.inr hwaits))
  · exact .inr (waits_append.2 (.inl hwaits))

end Formed

end Draft

/-! ## Drafting -/

theorem formed_plain_ret : Formed table calls (plain [.ret]) := by
  refine .inl ⟨.plain .ret trivial .nil, rfl, trivial, ⟨⟨trivial, nofun⟩, ?_⟩, trivial⟩
  rintro addr ⟨⟩

/-- **A draft that makes permitted calls is formed.** -/
theorem Draft.formed_of_draftsAlike {s : List CallSite} {d e : Draft}
    (h : DraftsAlike (fun sites p _ => (∀ site ∈ sites, site.callee ∈ calls) →
      Assembly.Formed table calls p) s d e) (hs : ∀ site ∈ s, site.callee ∈ calls) :
    d.Formed table calls := by
  induction h with
  | nil => exact .nil
  | code hp _ ih =>
    obtain ⟨hs, hs'⟩ := forall_mem_append.1 hs
    exact .code (hp hs) (ih hs')
  | conditional _ _ _ ihbody ihrest =>
    obtain ⟨hs, hs'⟩ := forall_mem_append.1 hs
    exact .conditional (ihbody hs) (ihrest hs')
  | choice _ _ _ _ ihbody ihother ihrest =>
    obtain ⟨hs, hs'⟩ := forall_mem_append.1 hs
    obtain ⟨ht, hs'⟩ := forall_mem_append.1 hs'
    exact .choice (ihbody hs) (ihother ht) (ihrest hs')
  | loop _ _ _ ihbody ihrest =>
    obtain ⟨hs, hs'⟩ := forall_mem_append.1 hs
    exact .loop (ihbody hs) (ihrest hs')

/-- At every point of a function or of the top-level code. -/
theorem formedRelation_scope (table : FunctionTable) (calls : List String) (scope : Option Scope) :
    CodeRelation sameNames False ⟨table, scope⟩ ⟨table, scope.map (Scope.rename sameNames)⟩
      fun sites p _ => (∀ site ∈ sites, site.callee ∈ calls) → Formed table calls p := by
  rw [sameNames_eq, Scope.rename_id]
  exact formedRelation ⟨table, scope⟩ calls

theorem formed_draftRet {value : Operand} (h : ∀ c ∈ value.calls, c ∈ calls) :
    Yields (draftPlain table (.ret value)) fun pieces =>
      ∃ front, pieces = front ++ plain [.ret] ∧ Formed table calls front := by
  refine (keepsIn_draftRet (formedRelation_scope table calls) value).yields ?_
  rintro _ _ ⟨front, _, hfront, rfl, -⟩
  exact ⟨front, rfl, hfront fun _ hsite => h _ (value.mem_calls_of_mem_callSites hsite)⟩

/-- **The draft of a body is formed.** -/
theorem formed_draft (body : Body) (h : ∀ c ∈ body.flatten.flatMap instrCalls, c ∈ calls) :
    Yields (body.draft table) (Draft.Formed table calls) :=
  (keepsIn_draft (formedRelation_scope table calls) (fun _ => formed_plain_ret) body).yields
    fun _ _ hd => Draft.formed_of_draftsAlike hd fun _ hsite =>
      h _ (Body.mem_calls_of_mem_callSites hsite)

end ImpMachine.Assembly

namespace ImpMachine.Linear.Body

open Assembly

/-! ## Bodies that end in a return -/

/-- The sequence with one more instruction at its end. -/
def concat : Body → (i : Instr) → i.IsPlain → Body
  | .nil, i, h => .plain i h .nil
  | .plain j hj rest, i, h => .plain j hj (rest.concat i h)
  | .conditional cond body rest, i, h => .conditional cond body (rest.concat i h)
  | .choice cond body other rest, i, h => .choice cond body other (rest.concat i h)
  | .loop cond body rest, i, h => .loop cond body (rest.concat i h)
  | .block body rest, i, h => .block body (rest.concat i h)

theorem flatten_concat (body : Body) (i : Instr) (h : i.IsPlain) :
    (body.concat i h).flatten = body.flatten ++ [i] := by
  induction body with
  | nil => rfl
  | plain j hj rest ih | conditional cond body rest _ ih | choice cond body other rest _ _ ih
  | loop cond body rest _ ih | block body rest _ ih =>
    simp [concat, flatten, ih]

theorem draft_concat (table : FunctionTable) (body : Body) (i : Instr) (h : i.IsPlain) :
    (body.concat i h).draft table = (do
      let d ← body.draft table
      let pieces ← draftPlain table i
      return d.append (.code pieces .nil)) := by
  induction body with
  | nil => simp [concat, draft, Draft.append]
  | plain j hj rest ih | conditional cond body rest _ ih | choice cond body other rest _ _ ih
  | loop cond body rest _ ih =>
    simp [concat, draft, ih, Draft.append]
  | block body rest _ ih => simp [concat, draft, ih, Draft.append_assoc]

theorem endsInReturn_append {back : List Instr} (h : back ≠ []) (front : List Instr) :
    endsInReturn (front ++ back) = endsInReturn back := by
  rw [endsInReturn, endsInReturn, List.getLast?_append, List.getLast?_eq_some_getLast h,
    Option.some_or]

theorem endsInReturn_append_cons {i : Instr} (hi : ∀ value, i ≠ .ret value)
    (front back : List Instr) : endsInReturn (front ++ i :: back) = endsInReturn back := by
  cases back with
  | nil =>
    rw [endsInReturn, List.getLast?_concat]
    split
    · rename_i h
      cases h
      exact (hi _ rfl).elim
    · rfl
  | cons j back => rw [append_cons, endsInReturn_append (by simp)]

/-- A body that ends in a return does so at its outermost level. -/
theorem exists_concat_of_endsInReturn {body : Body} (h : endsInReturn body.flatten = true) :
    ∃ (front : Body) (value : Operand) (hret : (Instr.ret value).IsPlain),
      body = front.concat (.ret value) hret := by
  induction body with
  | nil => cases h
  | plain i hi rest ih =>
    by_cases hrest : rest = .nil
    · subst hrest
      cases i with
      | ret value => exact ⟨.nil, value, hi, rfl⟩
      | _ => cases h
    · have hne : rest.flatten ≠ [] := by
        cases rest with
        | nil => exact absurd rfl hrest
        | _ => simp [flatten]
      have hrest : endsInReturn ([i] ++ rest.flatten) = true := h
      rw [endsInReturn_append hne] at hrest
      obtain ⟨front, value, hret, rfl⟩ := ih hrest
      exact ⟨.plain i hi front, value, hret, rfl⟩
  | conditional cond body rest _ ih =>
    have hmark : ∀ value, Instr.endIf ≠ .ret value := by simp
    rw [flatten, ← cons_append, endsInReturn_append_cons hmark] at h
    obtain ⟨front, value, hret, rfl⟩ := ih h
    exact ⟨.conditional cond body front, value, hret, rfl⟩
  | choice cond body other rest _ _ ih =>
    have helse : ∀ value, Instr.elseMark ≠ .ret value := by simp
    have hmark : ∀ value, Instr.endIf ≠ .ret value := by simp
    rw [flatten, ← cons_append, endsInReturn_append_cons helse,
      endsInReturn_append_cons hmark] at h
    obtain ⟨front, value, hret, rfl⟩ := ih h
    exact ⟨.choice cond body other front, value, hret, rfl⟩
  | loop cond body rest _ ih =>
    have hmark : ∀ value, Instr.endWhile ≠ .ret value := by simp
    rw [flatten, ← cons_append, endsInReturn_append_cons hmark] at h
    obtain ⟨front, value, hret, rfl⟩ := ih h
    exact ⟨.loop cond body front, value, hret, rfl⟩
  | block body rest _ ih =>
    have hmark : ∀ value, Instr.blockEnd ≠ .ret value := by simp
    rw [flatten, ← cons_append, endsInReturn_append_cons hmark] at h
    obtain ⟨front, value, hret, rfl⟩ := ih h
    exact ⟨.block body front, value, hret, rfl⟩

end ImpMachine.Linear.Body

namespace ImpMachine.Assembly

open Linear

/-! ## Routines -/

/-- Lets the code that comes next belong to a function, or to none. -/
def enterScope (scope : Option Scope) : Drafting Unit := fun b => .ok ((), { b with scope })

/-- The draft of a function, with a return added where the body does not end in one. -/
def Routine.draft (table : FunctionTable) (r : Routine) : Drafting Draft := do
  change RegisterMap.resetTouched
  enterScope (some ⟨r.name, r.params⟩)
  let d ← r.body.draft table
  enterScope none
  change RegisterMap.reserveTouched
  return if endsInReturn r.body.flatten then d else d.append (.code (plain [.ret]) .nil)

/-- The shape of a return. -/
def retShape : Shape := .plain .ret trivial .nil

/-- The draft has a shape that ends in a return, unless a call waits. -/
def Draft.Returns (table : FunctionTable) (calls : List String) (d : Draft) : Prop :=
  (∃ s : Shape, d.HasShape (s.append retShape) ∧ s.All (Lawful table calls)) ∨ Waits table d.leaves

theorem Draft.Formed.returns {d : Draft} (h : d.Formed table calls) {front : List Piece}
    (hfront : Assembly.Formed table calls front) :
    (d.append (.code (front ++ plain [.ret]) .nil)).Returns table calls := by
  rw [Returns, leaves_append]
  rcases h with ⟨s, hs, hsall⟩ | hwaits
  · rcases hfront with ⟨t, rfl, htfits, htall⟩ | hwaits
    · refine .inl ⟨s.append t, ?_, Shape.all_append.2 ⟨hsall, htall⟩⟩
      have hret : (t.append retShape).Fits := Shape.fits_append.2 ⟨htfits, trivial⟩
      have hshape := hs.append (.code hret .nil)
      rwa [Shape.append_nil, ← Shape.append_assoc, Shape.instructions_append,
        plain, map_append] at hshape
    · simp only [leaves, waits_append]
      exact .inr (.inr (.inl (.inl hwaits)))
  · exact .inr (waits_append.2 (.inl hwaits))

/-- **The draft of a function is formed and ends in a return.** -/
theorem formed_routine (r : Routine) (h : ∀ c ∈ r.function.callees, c ∈ calls) :
    Yields (r.draft table) (Draft.Returns table calls) := by
  refine Yields.bind_any fun _ => Yields.bind_any fun _ => ?_
  by_cases hret : endsInReturn r.body.flatten = true
  · -- the return of the body is the last of the function
    obtain ⟨front, value, hplain, hbody⟩ := Body.exists_concat_of_endsInReturn hret
    simp only [hret, if_true]
    simp only [Function.callees, Routine.function, hbody, Body.flatten_concat, flatMap_append,
      mem_append] at h
    rw [hbody, Body.draft_concat]
    have hvalue : ∀ c ∈ value.calls, c ∈ calls := fun c hc =>
      h c (.inr (by simpa [instrCalls, Instr.operands] using hc))
    refine Yields.bind (P := Draft.Returns table calls) ?_ fun d hd =>
      Yields.bind_any fun _ => Yields.bind_any fun _ => Yields.pure hd
    refine (formed_draft front fun c hc => h c (.inl hc)).bind fun d hd =>
      (formed_draftRet hvalue).bind ?_
    rintro _ ⟨pieces, rfl, hpieces⟩
    exact Yields.pure (hd.returns hpieces)
  · simp only [hret]
    exact (formed_draft r.body h).bind fun d hd => Yields.bind_any fun _ => Yields.bind_any fun _ =>
      Yields.pure (hd.returns .nil)

end Assembly

end ImpMachine
