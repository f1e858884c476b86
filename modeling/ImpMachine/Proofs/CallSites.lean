import ImpMachine.Proofs.Passes
import Mathlib.Data.List.Forall2

/-!
# Where calls go

The call sites of a body in the order in which it is lowered: the sites in the arguments come
before the call itself, and the condition of a loop is lowered a second time behind its body. The
code of a body has one call for each of them, in that order (`makes_draft`). A call goes to the
address of the function named there, which has as many parameters as there are arguments, or it
waits. So in code that waits for nothing the calls are those of the call sites
(`Makes.forall₂`).
-/

namespace ImpMachine

open Assembly Linear List

/-- The address that a call goes to. -/
def Instruction.callee? : Instruction → Option UInt8
  | .call addr => some addr
  | _ => none

namespace Assembly

/-! ## Code with calls -/

/-- The function of the call site has that many parameters, and its code starts at the address. -/
def Reaches (table : FunctionTable) (addr : UInt8) (site : CallSite) : Prop :=
  (∃ params, table.signatures.lookup site.callee = some params ∧ params.length = site.arity) ∧
    table.addresses.lookup site.callee = some addr.toNat

/-- The code makes the calls, in order. A call that waits may stand for several call sites, since
nothing is loaded for a function that is not declared. -/
inductive Makes (table : FunctionTable) : List Piece → List CallSite → Prop where
  | nil : Makes table [] []
  | other {i : Instruction} {pieces : List Piece} {sites : List CallSite} :
      i.callee? = none → Makes table pieces sites → Makes table (⟨i, none⟩ :: pieces) sites
  | call {addr : UInt8} {site : CallSite} {pieces : List Piece} {sites : List CallSite} :
      Reaches table addr site → Makes table pieces sites →
      Makes table (⟨.call addr, none⟩ :: pieces) (site :: sites)
  | waiting {callee : String} (passed : List CallSite) {pieces : List Piece}
      {sites : List CallSite} :
      table.addresses.lookup callee = none → Makes table pieces sites →
      Makes table (⟨.call 0, some (.call callee)⟩ :: pieces) (passed ++ sites)

variable {table : FunctionTable} {p q : List Piece} {s t : List CallSite}

namespace Makes

/-- Calls of code behind code. -/
theorem append (hp : Makes table p s) (hq : Makes table q t) : Makes table (p ++ q) (s ++ t) := by
  induction hp with
  | nil => exact hq
  | other hi _ ih => exact .other hi ih
  | call hsite _ ih => exact .call hsite ih
  | waiting passed hcallee _ ih =>
    rw [append_assoc]
    exact .waiting passed hcallee ih

theorem of_plain {is : List Instruction} (h : ∀ i ∈ is, i.callee? = none) :
    Makes table (plain is) [] := by
  induction is with
  | nil => exact .nil
  | cons i is ih =>
    obtain ⟨hi, his⟩ := forall_mem_cons.1 h
    exact .other hi (ih his)

/-- Of what the code waits for only functions are missing. -/
theorem fixup_eq (h : Makes table p s) {piece : Piece} (hpiece : piece ∈ p) {kind : FixupKind}
    (hkind : piece.fixup = some kind) : ∃ callee, kind = .call callee := by
  induction h with
  | nil => cases hpiece
  | other _ _ ih | call _ _ ih =>
    rcases mem_cons.1 hpiece with rfl | hpiece
    · cases hkind
    · exact ih hpiece
  | @waiting callee _ _ _ _ _ ih =>
    rcases mem_cons.1 hpiece with rfl | hpiece
    · cases hkind
      exact ⟨callee, rfl⟩
    · exact ih hpiece

/-- **In code that waits for nothing, the calls are those of the call sites.** -/
theorem forall₂ (h : Makes table p s) (hwaits : ¬Waits table p) :
    List.Forall₂ (Reaches table) ((p.map Piece.instruction).filterMap Instruction.callee?) s := by
  induction h with
  | nil => exact .nil
  | other hi _ ih =>
    rw [map_cons, filterMap_cons, hi]
    exact ih fun hw => hwaits ((waits_append (p := [_])).2 (.inr hw))
  | call hsite _ ih =>
    exact .cons hsite (ih fun hw => hwaits ((waits_append (p := [_])).2 (.inr hw)))
  | @waiting callee _ _ _ hcallee _ _ =>
    exact (hwaits ⟨callee, hcallee, mem_cons_self ..⟩).elim

end Makes

theorem callee?_of_isSimple {i : Instruction} (h : i.IsSimple) : i.callee? = none := by
  cases i with
  | call addr => exact h.2.elim
  | _ => rfl

/-! ## The calls of both passes -/

theorem callee?_of_all {shape : Shape} (h : shape.All Instruction.IsSimple) :
    ∀ i ∈ shape.instructions, i.callee? = none := by
  induction shape with
  | nil => simp [Shape.instructions]
  | plain i hi rest ih =>
    exact forall_mem_cons.2 ⟨callee?_of_isSimple h.1, ih h.2⟩
  | conditional _ body rest ihbody ihrest | loop _ body rest ihbody ihrest =>
    simp only [Shape.instructions, forall_mem_cons, forall_mem_append]
    exact ⟨rfl, ihbody h.1, rfl, ihrest h.2⟩
  | choice _ body other rest ihbody ihother ihrest =>
    simp only [Shape.instructions, forall_mem_cons, forall_mem_append]
    exact ⟨rfl, ihbody h.1, rfl, ihother h.2.1, rfl, ihrest h.2.2⟩

/-- Functions that are not declared have no address. -/
def FunctionTable.Declares (table : FunctionTable) : Prop :=
  ∀ callee, table.signatures.lookup callee = none → table.addresses.lookup callee = none

/-- The calls of code as a relation between two runs that are one. -/
theorem makesRelation (htable : table.Declares) (scope : Option Scope) :
    CodeRelation sameNames False ⟨table, scope⟩ ⟨table, scope.map (Scope.rename sameNames)⟩
      fun sites p _ => Makes table p sites where
  scope_eq := rfl
  signatures_eq := (Signatures.rename_id table.signatures).symm
  append hp hq := hp.append hq
  shaped := by
    rintro _ ⟨shape, rfl, -, hall⟩
    exact .of_plain (callee?_of_all hall)
  call {callee piece} passed arity hsites hpiece := by
    refine ⟨piece, hpiece, ?_⟩
    unfold callPiece at hpiece
    split at hpiece
    · rename_i hlookup
      cases hpiece
      have hwaiting : Makes table _ (passed ++ [⟨callee, arity⟩] ++ []) := .waiting _ hlookup .nil
      rwa [append_nil] at hwaiting
    · rename_i address hlookup
      split at hpiece
      · cases hpiece
      · rename_i hle
        cases hpiece
        cases hparams : table.signatures.lookup callee with
        | none =>
          rw [htable callee hparams] at hlookup
          cases hlookup
        | some params =>
          obtain ⟨rfl, rfl⟩ := hsites params hparams
          refine .call ⟨⟨params, hparams, rfl⟩, ?_⟩ .nil
          rw [hlookup, toNat_ofNat_of_le (Nat.le_of_not_lt hle)]
  far _ h := h.elim

/-! ## Bodies -/

theorem makes_ret : Makes table (plain [.ret]) [] := .other rfl .nil

theorem Makes.of_draftsAlike {d e : Draft}
    (h : DraftsAlike (fun sites p _ => Makes table p sites) s d e) : Makes table d.leaves s := by
  induction h with
  | nil => exact .nil
  | code hp _ ih => exact hp.append ih
  | conditional _ _ _ ihbody ihrest | loop _ _ _ ihbody ihrest => exact ihbody.append ihrest
  | choice _ _ _ _ ihbody ihother ihrest => exact ihbody.append (ihother.append ihrest)

variable (htable : table.Declares)
include htable

theorem makes_draftPlain {i : Instr} (hi : i.IsPlain) :
    Yields (draftPlain table i) fun p => Makes table p i.callSites :=
  (keepsIn_draftPlain (makesRelation htable) makes_ret hi).yields fun _ _ => id

theorem makes_draftTest (cond : Operand) :
    Yields (draftTest table cond) fun r => Makes table r.1 cond.callSites :=
  (keepsIn_draftTest (makesRelation htable) cond).yields fun _ _ h => h.1

theorem makes_draftLoopTest (cond : Operand) :
    Yields (draftLoopTest table cond) fun r => Makes table r.1 cond.callSites ∧ r.2.Tests cond :=
  (keepsIn_draftLoopTest (makesRelation htable) cond).yields fun _ _ h => ⟨h.1, h.2.2⟩

theorem makes_draftRepeat {test : LoopTest} {cond : Operand} (h : test.Tests cond) :
    Yields (draftRepeat table test) fun p => Makes table p cond.callSites :=
  (keepsIn_draftRepeat (makesRelation htable) h).yields fun _ _ => id

/-- **The code of a body makes its calls.** -/
theorem makes_draft (body : Body) :
    Yields (body.draft table) fun d => Makes table d.leaves body.callSites :=
  (keepsIn_draft (makesRelation htable) makes_ret body).yields fun _ _ => .of_draftsAlike

/-- A routine makes the calls of its body. -/
theorem makes_routine (r : Routine) :
    Yields (r.draft table) fun d => Makes table d.leaves r.body.callSites := by
  refine Yields.bind_any fun _ => Yields.bind_any fun _ => (makes_draft htable r.body).bind
    fun d hd => Yields.bind_any fun _ => Yields.bind_any fun _ => Yields.pure ?_
  split
  · exact hd
  · rw [Draft.leaves_append]
    exact append_nil r.body.callSites ▸ hd.append makes_ret

/-- The top-level code makes the calls of its call sites. -/
theorem makes_mainDraft (body : Body) :
    Yields (mainDraft table body) fun d => Makes table d.leaves body.callSites := by
  refine (makes_draft htable body).bind fun d hd => Yields.pure ?_
  rw [Draft.leaves_append]
  exact append_nil body.callSites ▸ hd.append (.other rfl .nil)

/-- Each function makes the calls of its call sites. -/
theorem makes_draftAll (rs : List Routine) :
    Yields (draftAll table rs) fun ds =>
      List.Forall₂ (fun d r => Makes table d.leaves r.body.callSites) ds rs := by
  induction rs with
  | nil => exact Yields.pure .nil
  | cons r rs ih =>
    exact (makes_routine htable r).bind fun d hd => ih.bind fun ds hds =>
      Yields.pure (.cons hd hds)

omit htable in
theorem Makes.join {ds : List Draft} {rs : List Routine}
    (h : List.Forall₂ (fun d r => Makes table d.leaves r.body.callSites) ds rs) :
    Makes table (Draft.join ds).leaves (rs.flatMap (·.body.callSites)) := by
  induction h with
  | nil => exact .nil
  | cons hd _ ih =>
    rw [Draft.join, Draft.leaves_append, flatMap_cons]
    exact hd.append ih

omit htable in
/-- Filling in changes skips only. -/
theorem Draft.HasShape.filterMap_eq {β : Type} {f : Instruction → Option β}
    (hf : ∀ i : Instruction, ¬i.IsPlain → f i = none) {d : Draft} {s : Shape} (h : d.HasShape s) :
    s.instructions.filterMap f = (d.leaves.map Piece.instruction).filterMap f := by
  have hif : ∀ r skip, f (.ifZero r skip) = none := fun _ _ => hf _ id
  have hjump : ∀ distance, f (.jump distance) = none := fun _ => hf _ id
  have hendIf : f .endIf = none := hf _ id
  have hwhile : ∀ r skip, f (.whileLoop r skip) = none := fun _ _ => hf _ id
  have hendWhile : f .endWhile = none := hf _ id
  induction h with
  | nil => rfl
  | code _ _ ih => simp [Shape.instructions_append, leaves, plain, ih, Function.comp_def]
  | conditional _ _ ihbody ihrest | loop _ _ ihbody ihrest =>
    simp only [Shape.instructions, leaves, map_append, filterMap_append,
      filterMap_cons, hif, hendIf, hwhile, hendWhile, ihbody, ihrest]
  | choice _ _ _ ihbody ihother ihrest =>
    simp only [Shape.instructions, leaves, map_append, filterMap_append,
      filterMap_cons, hif, hjump, hendIf, ihbody, ihother, ihrest]

omit htable in
theorem Draft.HasShape.callees_eq {d : Draft} {s : Shape} (h : d.HasShape s) :
    s.instructions.filterMap Instruction.callee? =
      (d.leaves.map Piece.instruction).filterMap Instruction.callee? := by
  refine h.filterMap_eq fun i hi => ?_
  cases i with
  | call => exact (hi trivial).elim
  | _ => rfl

end Assembly

end ImpMachine
