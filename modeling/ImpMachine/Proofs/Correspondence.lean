import ImpMachine.Proofs.LoadShape
import ImpMachine.Proofs.Renaming

/-!
# Two runs of lowering side by side

Lowering looks names up and compares them, and it uses what it knows of functions for calls only. So
two runs over the same code, under other names and with other addresses, go on side by side: they
make the same requests to the register map, and their code differs in calls only. A relation that
goes through putting code behind code, that code without calls has to itself, and that the calls of
both runs have (`CodeRelation`) is then one between all that the two runs make (`keeps_load`,
`keepsIn_draft`). A relation that leaves the second code out is a property of the code of one run.
-/

open List

namespace ImpMachine

open Assembly Linear

variable {args : List Operand} {table table' : FunctionTable}

/-! ## Call sites -/

/-- A call: the function named, and the number of arguments given. -/
structure CallSite where
  callee : String
  arity : Nat
  deriving DecidableEq

variable {s : List CallSite}

mutual

/-- The calls in an operand, in order of evaluation. -/
def Operand.callSites : Operand → List CallSite
  | .number _ | .text _ | .var _ => []
  | .binary _ lhs rhs | .logical _ lhs rhs => lhs.callSites ++ rhs.callSites
  | .unary _ operand => operand.callSites
  | .call callee args => Operand.callSitesAll args ++ [⟨callee, args.length⟩]

/-- The calls in several operands. -/
def Operand.callSitesAll : List Operand → List CallSite
  | [] => []
  | a :: rest => a.callSites ++ Operand.callSitesAll rest

end

theorem Operand.callSitesAll_eq_flatMap (args : List Operand) :
    Operand.callSitesAll args = args.flatMap Operand.callSites := by
  induction args with
  | nil => rfl
  | cons a args ih => rw [Operand.callSitesAll, ih, flatMap_cons]

/-- The calls in an instruction. -/
def Linear.Instr.callSites (i : Instr) : List CallSite :=
  i.operands.flatMap Operand.callSites ++ match i with
    | .call callee args => [⟨callee, args.length⟩]
    | _ => []

/-- The calls in a body, in the order in which they are lowered. -/
def Linear.Body.callSites : Body → List CallSite
  | .nil => []
  | .plain i _ rest => i.callSites ++ rest.callSites
  | .conditional cond body rest => cond.callSites ++ (body.callSites ++ rest.callSites)
  | .choice cond body other rest =>
    cond.callSites ++ (body.callSites ++ (other.callSites ++ rest.callSites))
  | .loop cond body rest =>
    cond.callSites ++ ((body.callSites ++ cond.callSites) ++ rest.callSites)
  | .block body rest => body.callSites ++ rest.callSites

namespace Assembly

section Yields

variable {σ α β : Type} {strict : Prop} {R : α → β → Prop} {g : σ → σ}
variable {x : StateT σ (Except AssembleError) α} {y : StateT σ (Except AssembleError) β}
variable {P : α → Prop}

theorem SideBySide.and_yields (h : SideBySide strict g R x y) (hx : Yields x P) :
    SideBySide strict g (fun a b => R a b ∧ P a) x y :=
  fun s => (h s).mono fun p _ hp hpq => ⟨⟨hpq.1, hx s p.1 p.2 hp⟩, hpq.2⟩

/-- What the relation says of the first results alone. -/
theorem SideBySide.yields (h : SideBySide strict g R x y) (hR : ∀ a b, R a b → P a) :
    Yields x P := by
  intro s a s' ha
  obtain ⟨b, -, hab⟩ := h.eq_ok ha
  exact hR a b hab

end Yields

/-! ## Registers -/

section Registers

variable (κ : Renaming) {strict : Prop}

/-- A request keeps pace with the request about renamed names. -/
abbrev Keeps {α β : Type} (strict : Prop) (R : α → β → Prop) (x : Allocation α)
    (y : Allocation β) : Prop :=
  SideBySide strict (RegisterMap.rename κ) R x y

theorem keeps_occupy (purpose purpose' : String) (holder : Holder) :
    Keeps κ strict Eq (RegisterMap.occupy purpose holder)
      (RegisterMap.occupy purpose' (holder.rename κ)) := by
  intro m
  unfold RegisterMap.occupy
  rw [RegisterMap.firstFree?_rename]
  cases m.firstFree? with
  | none => exact .error (fun _ => id) fun _ => ⟨_, rfl⟩
  | some r => exact .ok ⟨rfl, m.take_rename κ r holder⟩

theorem keeps_temp : Keeps κ strict Eq RegisterMap.temp RegisterMap.temp :=
  keeps_occupy κ _ _ .temporary

theorem keeps_bindGlobal (name : String) :
    Keeps κ strict Eq (RegisterMap.bindGlobal name) (RegisterMap.bindGlobal (κ name)) := by
  intro m
  unfold RegisterMap.bindGlobal
  rw [RegisterMap.lookup_rename]
  cases m.lookup name with
  | some r => exact .ok ⟨rfl, rfl⟩
  | none =>
    refine (keeps_occupy κ name (κ name) (.named name) m).map ?_
    rintro ⟨r, m'⟩ ⟨_, _⟩ ⟨rfl, rfl⟩
    exact ⟨rfl, rfl⟩

theorem keeps_bindReturn :
    Keeps κ strict Eq (RegisterMap.bindGlobal returnName) (RegisterMap.bindGlobal returnName) := by
  have h : Keeps κ strict Eq _ (RegisterMap.bindGlobal (κ returnName)) :=
    keeps_bindGlobal κ returnName
  rwa [κ.apply_returnName] at h

theorem keeps_bindParameter (function param : String) :
    Keeps κ strict Eq (RegisterMap.bindGlobal (qualified function param))
      (RegisterMap.bindGlobal (qualified (κ function) (κ param))) := by
  rw [← κ.apply_qualified]
  exact keeps_bindGlobal κ (qualified function param)

/-- A renamed name is bound alike. -/
theorem keeps_bind (name : String) :
    Keeps κ strict Eq (RegisterMap.bind name) (RegisterMap.bind (κ name)) := by
  intro m
  refine (keeps_bindGlobal κ name m).map ?_
  rintro ⟨⟨r, fresh⟩, m'⟩ ⟨_, _⟩ ⟨rfl, rfl⟩
  cases fresh with
  | false => exact ⟨rfl, rfl⟩
  | true => exact ⟨rfl, m'.noteInFrame_rename κ name⟩

theorem keeps_release (registers : List Register) :
    Keeps κ strict Eq (release registers) (release registers) :=
  fun m => .ok ⟨rfl, m.releaseAll_rename κ _⟩

theorem keeps_parameterRegisters (function : String) (params : List String) :
    Keeps κ strict Eq (parameterRegisters function params)
      (parameterRegisters (κ function) (params.map κ)) := by
  induction params with
  | nil => exact .pure rfl
  | cons param params ih =>
    exact (keeps_bindParameter κ function param).bind_same fun _ => ih.bind_same fun _ => .pure rfl

theorem keeps_compareLess (dst : Register) (a b : Source) :
    Keeps κ strict Eq (compareLess dst a b) (compareLess dst a b) :=
  (keeps_temp κ).bind_same fun _ => (keeps_temp κ).bind_same fun _ =>
    (keeps_release κ _).bind_same fun _ => .pure rfl

/-- An operator takes the same registers. -/
theorem keeps_operate (op : BinaryOp) (dst : Register) (a b : Source) :
    Keeps κ strict Eq (operate op dst a b) (operate op dst a b) := by
  have hnot (a b : Source) : Keeps κ strict Eq (compareNot dst a b) (compareNot dst a b) :=
    (keeps_temp κ).bind_same fun q => (keeps_compareLess κ q a b).bind_same fun _ =>
      (keeps_release κ _).bind_same fun _ => .pure rfl
  have hequal (same differ : UInt8) :
      Keeps κ strict Eq (compareEqual dst a b same differ) (compareEqual dst a b same differ) :=
    (keeps_temp κ).bind_same fun _ => (keeps_release κ _).bind_same fun _ => .pure rfl
  cases op with
  | add | sub | mul | div => exact .pure rfl
  | mod =>
    exact (keeps_temp κ).bind_same fun _ => (keeps_release κ _).bind_same fun _ => .pure rfl
  | lt => exact keeps_compareLess κ dst a b
  | gt => exact keeps_compareLess κ dst b a
  | ltEq => exact hnot b a
  | gtEq => exact hnot a b
  | eq => exact hequal 1 0
  | notEq => exact hequal 0 1

end Registers

/-! ## Operands -/

/-- A relation between the code of two runs that make the given calls. It goes through putting code
behind code, code without calls has it to itself, and the calls have it. A call of no declared
function stands for the calls in its arguments too, which it does not evaluate. -/
structure CodeRelation (κ : Renaming) (strict : Prop) (env env' : Environment)
    (C : List CallSite → List Piece → List Piece → Prop) : Prop where
  scope_eq : env'.scope = env.scope.map (Scope.rename κ)
  signatures_eq : env'.signatures = env.signatures.rename κ
  append : ∀ {s s' p p' q q'}, C s p q → C s' p' q' → C (s ++ s') (p ++ p') (q ++ q')
  shaped : ∀ {is}, Shaped is → C [] (plain is) (plain is)
  call : ∀ {callee piece} passed arity, (∀ params, env.signatures.lookup callee = some params →
      passed = [] ∧ params.length = arity) → callPiece env callee = .ok piece →
    ∃ piece', callPiece env' (κ callee) = .ok piece' ∧
      C (passed ++ [⟨callee, arity⟩]) [piece] [piece']
  far : ∀ {callee e}, callPiece env callee = .error e → strict →
    ∃ e', callPiece env' (κ callee) = .error e'

/-- The value is ready in the same place, after related code. -/
structure FetchedAlike {α : Type} (R : List Piece → List Piece → Prop) (a b : Fetched α) :
    Prop where
  code : R a.code b.code
  place : a.place = b.place
  temporaries : a.temporaries = b.temporaries

/-- The loads keep pace for every register. -/
def LoadsAlike (κ : Renaming) (strict : Prop) (R : List Piece → List Piece → Prop) (x y : Load) :
    Prop :=
  ∀ dst, Keeps κ strict R (x dst) (y dst)

variable {κ : Renaming} {strict : Prop} {env env' : Environment}
  {C : List CallSite → List Piece → List Piece → Prop} {x y : Load}

/-- Both runs take the same temporary. -/
theorem keeps_viaTemporary {R : List Piece → List Piece → Prop}
    (hload : LoadsAlike κ strict R x y) :
    Keeps κ strict (FetchedAlike R) (viaTemporary x) (viaTemporary y) :=
  (keeps_temp κ).bind_same fun t => (hload t).bind fun _ _ hcode => .pure ⟨hcode, rfl, rfl⟩

theorem forall_mem_loads {P : Load → Prop} :
    (∀ x ∈ loads env args, P x) ↔ ∀ a ∈ args, P (load env a) := by
  induction args with
  | nil => simp [loads]
  | cons a args ih => rw [loads, forall_mem_cons, forall_mem_cons, ih]

theorem length_loads (env : Environment) (args : List Operand) :
    (loads env args).length = args.length := by
  induction args with
  | nil => rfl
  | cons a args ih => rw [loads, length_cons, length_cons, ih]

section Operands

variable (h : CodeRelation κ strict env env' C)
include h

theorem CodeRelation.nil : C [] [] [] := h.shaped .nil

/-- Code without calls may follow. -/
theorem CodeRelation.behind {p q : List Piece} {is : List Instruction}
    (hpq : C s p q) (his : Shaped is) : C s (p ++ plain is) (q ++ plain is) := by
  have happend := h.append hpq (h.shaped his)
  rwa [append_nil] at happend

/-- A variable is read alike under its new name. -/
theorem keeps_readVariable (name : String) :
    Keeps κ strict (fun a b => a.1 = b.1 ∧ C [] a.2 b.2) (readVariable env name)
      (readVariable env' (κ name)) := by
  refine SideBySide.get.bind fun m m' hm => ?_
  rw [hm, key_rename κ h.scope_eq, RegisterMap.lookup_rename]
  cases m.lookup (env.key name) with
  | some r => exact .pure ⟨rfl, h.nil⟩
  | none =>
    refine (keeps_bind κ _).bind_same fun binding => .pure ⟨rfl, ?_⟩
    rw [h.scope_eq, Option.isNone_map]
    split
    · exact h.shaped (.of_simple (by simp [isSimple_mov]))
    · exact h.nil

theorem keeps_fetchRegister (e : Operand) (hload : LoadsAlike κ strict (C e.callSites) x y) :
    Keeps κ strict (FetchedAlike (C e.callSites)) (fetchRegister env e x)
      (fetchRegister env' (e.rename κ) y) := by
  cases e with
  | var name =>
    exact (keeps_readVariable h name).bind fun a b hab => .pure ⟨hab.2, hab.1, rfl⟩
  | _ => exact keeps_viaTemporary hload

/-- Both runs fetch an operand from the same place. -/
theorem keeps_fetch (e : Operand) (hload : LoadsAlike κ strict (C e.callSites) x y) :
    Keeps κ strict (fun a b => FetchedAlike (C e.callSites) a b ∧ a.place.Valid) (fetch env e x)
      (fetch env' (e.rename κ) y) := by
  unfold fetch
  rw [Operand.number?_rename]
  cases hv : e.number?.bind immediate? with
  | some v =>
    obtain ⟨n, hn, hv⟩ := Option.bind_eq_some_iff.1 hv
    cases e with
    | number => exact .pure ⟨⟨h.nil, rfl, rfl⟩, valid_of_immediate? hv⟩
    | _ => cases hn
  | none =>
    refine (keeps_fetchRegister h e hload).bind fun a b hab =>
      .pure ⟨⟨hab.code, ?_, hab.temporaries⟩, valid_regSource _⟩
    rw [hab.place]

theorem keeps_callPiece {callee : String} (passed : List CallSite) (arity : Nat)
    (hsites : ∀ params, env.signatures.lookup callee = some params →
      passed = [] ∧ params.length = arity) :
    Keeps κ strict (fun p q => C (passed ++ [⟨callee, arity⟩]) [p] [q])
      (liftM (callPiece env callee) : Allocation Piece) (liftM (callPiece env' (κ callee))) := by
  intro m
  cases hpiece : callPiece env callee with
  | ok piece =>
    obtain ⟨piece', hpiece', hC⟩ := h.call passed arity hsites hpiece
    rw [hpiece']
    exact .ok ⟨hC, rfl⟩
  | error e =>
    refine .error (fun _ => ?_) fun hstrict => ?_
    · unfold callPiece at hpiece
      split at hpiece
      · cases hpiece
      · split at hpiece
        · cases hpiece
          exact id
        · cases hpiece
    · obtain ⟨e', he'⟩ := h.far hpiece hstrict
      rw [he']
      exact ⟨e', rfl⟩

variable (hargs : ∀ a ∈ args,
  LoadsAlike κ strict (C a.callSites) (load env a) (load env' (a.rename κ)))
include hargs

/-- Both runs load arguments into the same temporaries. -/
theorem keeps_loadTemporaries :
    Keeps κ strict (fun fs gs => fs.map (·.place) = gs.map (·.place) ∧
        C (args.flatMap Operand.callSites) (fs.flatMap (·.code)) (gs.flatMap (·.code)))
      (loadTemporaries (loads env args))
      (loadTemporaries (loads env' (Operand.renameAll κ args))) := by
  induction args with
  | nil => exact .pure ⟨rfl, h.nil⟩
  | cons a args ih =>
    obtain ⟨ha, hargs⟩ := forall_mem_cons.1 hargs
    refine (keeps_viaTemporary ha).bind fun f g hfg => (ih hargs).bind fun fs gs hfgs =>
      .pure ⟨?_, ?_⟩
    · rw [map_cons, map_cons, hfg.place, hfgs.1]
    · rw [flatMap_cons, flatMap_cons, flatMap_cons]
      exact h.append hfg.code hfgs.2

/-- Both runs pass the arguments in the same registers. -/
theorem keeps_loadArguments (targets : List Register) :
    Keeps κ strict (C (args.flatMap Operand.callSites)) (loadArguments targets (loads env args))
      (loadArguments targets (loads env' (Operand.renameAll κ args))) := by
  have hmany : Keeps κ strict (C (args.flatMap Operand.callSites))
      (do
        let fetched ← loadTemporaries (loads env args)
        release (fetched.map (·.place))
        return fetched.flatMap (·.code)
          ++ plain (List.zipWith (fun target f => copy target f.place) targets fetched))
      (do
        let fetched ← loadTemporaries (loads env' (Operand.renameAll κ args))
        release (fetched.map (·.place))
        return fetched.flatMap (·.code)
          ++ plain (List.zipWith (fun target f => copy target f.place) targets fetched)) := by
    refine (keeps_loadTemporaries h hargs).bind fun fs gs hfgs => ?_
    have hcopies (fs : List (Fetched Register)) :
        List.zipWith (fun target f => copy target f.place) targets fs =
          List.zipWith copy targets (fs.map (·.place)) := by
      rw [zipWith_map_right]
    rw [hcopies, hcopies, hfgs.1]
    refine (keeps_release κ _).bind_same fun _ => .pure (h.behind hfgs.2 (.of_simple ?_))
    intro i hi
    rw [← map_uncurry_zip_eq_zipWith] at hi
    obtain ⟨⟨target, r⟩, -, rfl⟩ := mem_map.1 hi
    exact isSimple_copy target r
  rcases args with _ | ⟨a, _ | ⟨b, args⟩⟩
  · exact hmany
  · rcases targets with _ | ⟨target, _ | _⟩
    · exact hmany
    · -- one argument goes to its parameter at once
      rw [flatMap_singleton]
      exact hargs a (mem_singleton_self a) target
    · exact hmany
  · exact hmany

/-- Both runs make the same call behind related arguments. -/
theorem keeps_callCode (callee : String) :
    Keeps κ strict (C (args.flatMap Operand.callSites ++ [⟨callee, args.length⟩]))
      (callCode env callee (loads env args))
      (callCode env' (κ callee) (loads env' (Operand.renameAll κ args))) := by
  have hlength : (loads env' (Operand.renameAll κ args)).length = args.length := by
    rw [length_loads, Operand.renameAll_eq_map, length_map]
  have hsignature : env'.signatures.lookup (κ callee) =
      (env.signatures.lookup callee).map (List.map κ) := by
    rw [h.signatures_eq]
    exact κ.lookup_map (List.map κ) env.signatures callee
  unfold callCode
  rw [hsignature, hlength, length_loads]
  cases hparams : env.signatures.lookup callee with
  | none =>
    have hpiece := keeps_callPiece h (args.flatMap Operand.callSites) args.length
      fun params h => by rw [hparams] at h; cases h
    exact hpiece.bind fun _ _ hpq => .pure hpq
  | some params =>
    dsimp only [Option.map_some]
    rw [length_map]
    split
    · rename_i harity
      refine (keeps_parameterRegisters κ callee params).bind_same fun targets =>
        (keeps_loadArguments h hargs targets).bind fun p q hpq => ?_
      have hpiece := keeps_callPiece h [] args.length fun params' h => by
        rw [hparams] at h
        cases h
        exact ⟨rfl, harity⟩
      exact hpiece.bind fun _ _ hcall => .pure (h.append hpq hcall)
    · exact fun _ => .error (fun _ => id) fun _ => ⟨_, rfl⟩

end Operands

mutual

/-- **The code of an operand** is related in both runs, for any register. -/
theorem keeps_load (h : CodeRelation κ strict env env' C) : (e : Operand) →
    LoadsAlike κ strict (C e.callSites) (load env e) (load env' (e.rename κ))
  | .number n => by
    intro dst
    unfold Operand.rename load
    split
    · exact .pure (h.shaped (.of_simple (isSimple_loadConstant dst _)))
    · exact .throw id _
  | .text s => fun dst => .throw id _
  | .var name => fun dst =>
    (keeps_readVariable h name).bind fun a b hab =>
      .pure (hab.1 ▸ h.behind hab.2 (.of_simple (by simp [isSimple_copy])))
  | .binary op lhs rhs => by
    intro dst
    unfold Operand.rename load
    refine (keeps_fetch h lhs (keeps_load h lhs)).bind fun a a' ha =>
      (keeps_fetch h rhs (keeps_load h rhs)).bind fun b b' hb => ?_
    rw [← ha.1.place, ← hb.1.place, ← ha.1.temporaries, ← hb.1.temporaries]
    refine ((keeps_operate κ op dst _ _).and_yields (shaped_operate op dst ha.2 hb.2)).bind ?_
    rintro code _ ⟨rfl, hcode⟩
    exact (keeps_release κ _).bind_same fun _ =>
      .pure (h.behind (h.append ha.1.code hb.1.code) hcode)
  | .unary .neg operand => by
    intro dst
    unfold Operand.rename load
    refine (keeps_fetch h operand (keeps_load h operand)).bind fun a a' ha => ?_
    rw [← ha.1.place, ← ha.1.temporaries]
    have hsub : (arith .sub dst (.imm 0) a.place).IsSimple := isSimple_arith (by decide) ha.2
    exact (keeps_release κ _).bind_same fun _ =>
      .pure (h.behind ha.1.code (.of_simple (by simpa using hsub)))
  | .unary .not operand => by
    intro dst
    unfold Operand.rename load
    refine (keeps_viaTemporary (keeps_load h operand)).bind fun a a' ha => ?_
    rw [ha.place, ha.temporaries]
    exact (keeps_release κ _).bind_same fun _ => .pure (h.behind ha.code (.choose ..))
  | .logical op lhs rhs => by
    intro dst
    unfold Operand.rename load
    refine (keeps_viaTemporary (keeps_load h lhs)).bind fun a a' ha =>
      (keeps_viaTemporary (keeps_load h rhs)).bind fun b b' hb => ?_
    rw [ha.place, hb.place, ha.temporaries, hb.temporaries]
    exact (keeps_release κ _).bind_same fun _ =>
      .pure (h.behind (h.append ha.code hb.code) (.combine ..))
  | .call callee args => by
    intro dst
    unfold Operand.rename load
    rw [Operand.callSites, Operand.callSitesAll_eq_flatMap]
    exact (keeps_callCode h (keeps_loads h args) callee).bind fun p q hpq =>
      (keeps_bindReturn κ).bind_same fun _ =>
        .pure (h.behind hpq (.of_simple (by simp [isSimple_copy])))

/-- **All arguments are loaded alike.** -/
theorem keeps_loads (h : CodeRelation κ strict env env' C) : (args : List Operand) →
    ∀ a ∈ args, LoadsAlike κ strict (C a.callSites) (load env a) (load env' (a.rename κ))
  | [] => by simp
  | a :: rest => forall_mem_cons.2 ⟨keeps_load h a, keeps_loads h rest⟩

end

/-! ## Bodies -/

/-- A step of drafting keeps pace with the step under other names. -/
abbrev KeepsIn (κ : Renaming) (strict : Prop) {α β : Type} (R : α → β → Prop) (x : Drafting α)
    (y : Drafting β) : Prop :=
  SideBySide strict (Bindings.rename κ) R x y

section Steps

variable {α β : Type} {R : α → β → Prop}

/-- Requests of both runs keep the scopes as they are. -/
theorem keepsIn_request {x : Allocation α} {y : Allocation β} (h : Keeps κ strict R x y) :
    KeepsIn κ strict R (request x) (request y) := by
  intro b
  refine (h b.registers).map ?_
  rintro ⟨a, m⟩ ⟨b, _⟩ ⟨hab, rfl⟩
  exact ⟨hab, rfl⟩

/-- Both runs lower operands in corresponding environments. -/
theorem keepsIn_environmentOf {f : Environment → Drafting α} {g : Environment → Drafting β}
    (h : ∀ scope, KeepsIn κ strict R (f ⟨table, scope⟩) (g ⟨table', scope.map (Scope.rename κ)⟩)) :
    KeepsIn κ strict R (environmentOf table >>= f) (environmentOf table' >>= g) :=
  fun b => h b.scope b

theorem keepsIn_change {f : RegisterMap → RegisterMap}
    (h : ∀ m : RegisterMap, f (m.rename κ) = (f m).rename κ) :
    KeepsIn κ strict Eq (change f) (change f) :=
  fun b => .ok ⟨rfl, by unfold Bindings.rename; rw [h]⟩

theorem keepsIn_own (name : String) : KeepsIn κ strict Eq (own name) (own (κ name)) := by
  refine fun b => .ok ⟨rfl, ?_⟩
  unfold Bindings.rename
  cases b.scope <;> rfl

end Steps

/-- The drafts have the same constructs and related code. -/
inductive DraftsAlike (C : List CallSite → List Piece → List Piece → Prop) :
    List CallSite → Draft → Draft → Prop
  | nil : DraftsAlike C [] .nil .nil
  | code {s s' : List CallSite} {p q : List Piece} {d e : Draft} : C s p q →
      DraftsAlike C s' d e → DraftsAlike C (s ++ s') (.code p d) (.code q e)
  | conditional (test : Register) {s s' : List CallSite} {d e d' e' : Draft} :
      DraftsAlike C s d e → DraftsAlike C s' d' e' →
      DraftsAlike C (s ++ s') (.conditional test d d') (.conditional test e e')
  | choice (test : Register) {s t s' : List CallSite} {d e o p d' e' : Draft} :
      DraftsAlike C s d e → DraftsAlike C t o p → DraftsAlike C s' d' e' →
      DraftsAlike C (s ++ (t ++ s')) (.choice test d o d') (.choice test e p e')
  | loop (test : Register) {s s' : List CallSite} {d e d' e' : Draft} :
      DraftsAlike C s d e → DraftsAlike C s' d' e' →
      DraftsAlike C (s ++ s') (.loop test d d') (.loop test e e')

/-- Drafts that correspond do so one behind the other. -/
theorem DraftsAlike.append {s' : List CallSite} {d e d' e' : Draft} (h : DraftsAlike C s d e)
    (h' : DraftsAlike C s' d' e') : DraftsAlike C (s ++ s') (d.append d') (e.append e') := by
  induction h with
  | nil => exact h'
  | code hpq _ ih =>
    rw [append_assoc]
    exact .code hpq ih
  | conditional test hbody _ _ ih =>
    rw [append_assoc]
    exact .conditional test hbody ih
  | choice test hbody hother _ _ _ ih =>
    rw [append_assoc, append_assoc]
    exact .choice test hbody hother ih
  | loop test hbody _ _ ih =>
    rw [append_assoc]
    exact .loop test hbody ih

/-- What a loop tests: its condition, or a variable, which has no calls. -/
def LoopTest.Tests (test : LoopTest) (cond : Operand) : Prop :=
  (∃ t, test = .computed t cond) ∨ (∃ t, test = .variable t) ∧ cond.callSites = []

section Bodies

variable (h : ∀ scope : Option Scope,
  CodeRelation κ strict ⟨table, scope⟩ ⟨table', scope.map (Scope.rename κ)⟩ C)
include h

theorem keepsIn_draftAssign (name : String) (value : Operand) :
    KeepsIn κ strict (C value.callSites) (draftAssign table name value)
      (draftAssign table' (κ name) (value.rename κ)) := by
  refine keepsIn_environmentOf fun scope => ?_
  rw [key_rename κ (h scope).scope_eq]
  exact (keepsIn_request (keeps_bind κ _)).bind_same fun binding =>
    keepsIn_request (keeps_load (h scope) value binding.register)

theorem keepsIn_draftTest (cond : Operand) :
    KeepsIn κ strict (fun a b => C cond.callSites a.1 b.1 ∧ a.2 = b.2) (draftTest table cond)
      (draftTest table' (cond.rename κ)) := by
  refine keepsIn_environmentOf fun scope =>
    (keepsIn_request (keeps_fetchRegister (h scope) cond (keeps_load (h scope) cond))).bind
      fun f g hfg => ?_
  rw [hfg.temporaries]
  exact (keepsIn_request (keeps_release κ _)).bind_same fun _ => .pure ⟨hfg.code, hfg.place⟩

theorem keepsIn_draftCall (callee : String) (args : List Operand) :
    KeepsIn κ strict (C (args.flatMap Operand.callSites ++ [⟨callee, args.length⟩]))
      (do let env ← environmentOf table; request (callCode env callee (loads env args)))
      (do
        let env ← environmentOf table'
        request (callCode env (κ callee) (loads env (Operand.renameAll κ args)))) :=
  keepsIn_environmentOf fun scope =>
    keepsIn_request (keeps_callCode (h scope) (keeps_loads (h scope) args) callee)

/-- The code of a return is that of its value and the return itself. -/
theorem keepsIn_draftRet (value : Operand) :
    KeepsIn κ strict (fun a b => ∃ p q, C value.callSites p q ∧ a = p ++ plain [.ret] ∧
        b = q ++ plain [.ret]) (draftPlain table (.ret value))
      (draftPlain table' (.ret (value.rename κ))) :=
  keepsIn_environmentOf fun scope => (keepsIn_request (keeps_bindReturn κ)).bind_same fun binding =>
    (keepsIn_request (keeps_load (h scope) value binding.register)).bind fun p q hpq =>
      .pure ⟨p, q, hpq, rfl, rfl⟩

/-- The code of a plain instruction in both runs. -/
theorem keepsIn_draftPlain (hret : C [] (plain [.ret]) (plain [.ret])) {i : Instr}
    (hi : i.IsPlain) :
    KeepsIn κ strict (C i.callSites) (draftPlain table i) (draftPlain table' (i.rename κ)) := by
  cases i with
  | declare name value =>
    simp only [Instr.callSites, Instr.operands, flatMap_singleton, append_nil]
    exact (keepsIn_own name).bind_same fun _ => keepsIn_draftAssign h name value
  | assign name value =>
    simp only [Instr.callSites, Instr.operands, flatMap_singleton, append_nil]
    exact keepsIn_draftAssign h name value
  | print value =>
    simp only [Instr.callSites, Instr.operands, flatMap_singleton, append_nil]
    refine (keepsIn_draftTest h value).bind fun a b hab => .pure ?_
    rw [hab.2]
    exact (h none).behind hab.1 (.single (isSimple_out b.2))
  | call callee args =>
    have hcall := keepsIn_draftCall h callee args
    rw [Operand.renameAll_eq_map] at hcall
    exact hcall
  | expr value =>
    simp only [Instr.callSites, Instr.operands, flatMap_singleton, append_nil]
    cases value with
    | call callee args =>
      rw [Operand.callSites, Operand.callSitesAll_eq_flatMap]
      exact keepsIn_draftCall h callee args
    | _ =>
      refine keepsIn_environmentOf fun scope =>
        (keepsIn_request (keeps_viaTemporary (keeps_load (h scope) _))).bind fun f g hfg => ?_
      rw [hfg.temporaries]
      exact (keepsIn_request (keeps_release κ _)).bind_same fun _ => .pure hfg.code
  | ret value =>
    simp only [Instr.callSites, Instr.operands, flatMap_singleton, append_nil]
    refine (keepsIn_draftRet h value).mono ?_
    rintro _ _ ⟨p, q, hpq, rfl, rfl⟩
    have happend := (h none).append hpq hret
    rwa [append_nil] at happend
  | ifBegin | whileBegin => cases hi.1
  | _ => exact .pure (h none).nil

/-- The first test of a loop in both runs. -/
theorem keepsIn_draftLoopTest (cond : Operand) :
    KeepsIn κ strict (fun a b => C cond.callSites a.1 b.1 ∧ b.2 = a.2.rename κ ∧ a.2.Tests cond)
      (draftLoopTest table cond) (draftLoopTest table' (cond.rename κ)) := by
  refine keepsIn_environmentOf fun scope => ?_
  cases cond with
  | var name =>
    refine (keepsIn_request (keeps_readVariable (h scope) name)).bind fun a b hab =>
      .pure ⟨hab.2, ?_, .inr ⟨⟨_, rfl⟩, rfl⟩⟩
    rw [hab.1]
    rfl
  | _ =>
    refine (keepsIn_request (keeps_viaTemporary (keeps_load (h scope) _))).bind fun f g hfg =>
      .pure ⟨hfg.code, ?_, .inl ⟨_, rfl⟩⟩
    rw [hfg.place]
    rfl

theorem keepsIn_draftRepeat {test : LoopTest} {cond : Operand} (htest : test.Tests cond) :
    KeepsIn κ strict (C cond.callSites) (draftRepeat table test)
      (draftRepeat table' (test.rename κ)) := by
  rcases htest with ⟨t, rfl⟩ | ⟨⟨t, rfl⟩, hcond⟩
  · exact keepsIn_environmentOf fun scope => keepsIn_request (keeps_load (h scope) cond t)
  · rw [hcond]
    exact .pure (h none).nil

omit h in
theorem keepsIn_draftEndTest (test : LoopTest) :
    KeepsIn κ strict Eq (draftEndTest test) (draftEndTest (test.rename κ)) := by
  rcases test with r | ⟨r, cond⟩
  · exact .pure rfl
  · exact keepsIn_request (keeps_release κ _)

/-- **The drafts of a body** have the same constructs and related code. -/
theorem keepsIn_draft (hret : C [] (plain [.ret]) (plain [.ret])) (body : Body) :
    KeepsIn κ strict (DraftsAlike C body.callSites) (body.draft table)
      ((body.rename κ).draft table') := by
  induction body with
  | nil => exact .pure .nil
  | plain i hi rest ih =>
    exact (keepsIn_draftPlain h hret hi).bind fun p q hpq => ih.bind fun d e hde =>
      .pure (.code hpq hde)
  | conditional cond body rest ihbody ihrest =>
    refine (keepsIn_draftTest h cond).bind fun a b hab => ihbody.bind fun d e hde =>
      ihrest.bind fun d' e' hde' => .pure ?_
    rw [hab.2]
    exact .code hab.1 (.conditional b.2 hde hde')
  | choice cond body other rest ihbody ihother ihrest =>
    refine (keepsIn_draftTest h cond).bind fun a b hab => ihbody.bind fun d e hde =>
      ihother.bind fun o p hop => ihrest.bind fun d' e' hde' => .pure ?_
    rw [hab.2]
    exact .code hab.1 (.choice b.2 hde hop hde')
  | loop cond body rest ihbody ihrest =>
    refine (keepsIn_draftLoopTest h cond).bind fun a b hab => ?_
    dsimp only
    rw [hab.2.1, register_rename]
    refine ihbody.bind fun d e hde => (keepsIn_draftRepeat h hab.2.2).bind fun p q hpq =>
      (keepsIn_draftEndTest a.2).bind_same fun _ => ihrest.bind fun d' e' hde' =>
        .pure (.code hab.1 (.loop a.2.register ?_ hde'))
    have hagain := hde.append (.code hpq .nil)
    rwa [append_nil] at hagain
  | block body rest ihbody ihrest =>
    exact (keepsIn_change fun m => m.pushScope_rename κ).bind_same fun _ =>
      ihbody.bind fun d e hde => (keepsIn_change fun m => m.popScope_rename κ).bind_same fun _ =>
        ihrest.bind fun d' e' hde' => .pure (hde.append hde')

end Bodies

end Assembly

end ImpMachine
