import ImpMachine.Proofs.PartSites

/-!
# The parts of an operand in its code

Evaluating an operand evaluates its parts, each behind the code of those before it (`LoadsPart`).
So the code of a stretch has, for every operand inside its operands, code that loads that operand
(`Site.Loads.code_eq`).
-/

namespace ImpMachine

open Assembly Linear RegisterMap List Permit

variable {calls : List String} {callee : String} {dst : Register} {e : Operand} {m m' : RegisterMap}
variable {front : List Piece} {p : Permit}

/-- The operand is loaded into a register wherever its value is used: it is neither a variable nor a
small constant. -/
def Operand.IsLoaded (e : Operand) : Prop :=
  e.number?.bind immediate? = none ∧ ∀ name, e ≠ .var name

namespace Assembly

/-- No name gave up its register. -/
def NamesKept (m m' : RegisterMap) : Prop :=
  ∀ ⦃r x⦄, m.holder r = some (.named x) → m'.holder r = some (.named x)

/-- Only temporaries are given back. -/
theorem namesKept_releaseAll (m : RegisterMap) (ts : List Register) :
    NamesKept m (m.releaseAll (ts.map Fin.val)) := by
  intro r x hr
  rw [holder_releaseAll_of_not (by simp [hr]), hr]

/-- Formed code in which nothing waits is a shape. -/
theorem Formed.exists_shape {table : FunctionTable} {pieces : List Piece}
    (h : Formed table calls pieces) (hpieces : ∀ piece ∈ pieces, piece.fixup = none) :
    ∃ s : Shape, pieces = plain s.instructions ∧ s.All (Lawful table calls) := by
  rcases h with ⟨s, heq, -, hall⟩ | ⟨callee, -, hmem⟩
  · exact ⟨s, heq, hall⟩
  · cases hpieces _ hmem

/-! ## Results of loading -/

section Results

variable {env : Environment} {code : List Piece} {op : BinaryOp} {l r : Operand} {ld : Load}
variable {f : Fetched Register}

/-- An operand is loaded into a new temporary. -/
theorem viaTemporary_eq_ok (h : viaTemporary ld m = .ok (f, m')) :
    ∃ t m₁ code, temp m = .ok (t, m₁) ∧ ld t m₁ = .ok (code, m') ∧ f = ⟨code, t, [t]⟩ := by
  obtain ⟨t, m₁, ht, h⟩ := run_bind_eq_ok.1 h
  obtain ⟨code, m₂, hcode, h⟩ := run_bind_eq_ok.1 h
  cases h
  exact ⟨t, m₁, code, ht, hcode, rfl⟩

/-- A variable is used where it is, anything else in a temporary. -/
theorem fetchRegister_eq_ok (h : fetchRegister env e ld m = .ok (f, m')) :
    (∃ name r code, e = .var name ∧ readVariable env name m = .ok ((r, code), m') ∧
        f = ⟨code, r, []⟩) ∨
      (∀ name, e ≠ .var name) ∧ viaTemporary ld m = .ok (f, m') := by
  unfold fetchRegister at h
  split at h
  · rename_i name
    obtain ⟨⟨r, code⟩, m₁, hread, h⟩ := run_bind_eq_ok.1 h
    cases h
    exact .inl ⟨name, r, code, rfl, hread, rfl⟩
  · rename_i hvar
    exact .inr ⟨hvar, h⟩

/-- A value is an immediate, in the register of its variable, or in a temporary. -/
theorem fetch_eq_ok {f : Fetched Source} (h : fetch env e ld m = .ok (f, m')) :
    (∃ v, e.number?.bind immediate? = some v ∧ f = ⟨[], .imm v, []⟩ ∧ m' = m) ∨
      (∃ name r code, e = .var name ∧ readVariable env name m = .ok ((r, code), m') ∧
        f = ⟨code, regSource r, []⟩) ∨
      e.IsLoaded ∧ ∃ g, viaTemporary ld m = .ok (g, m') ∧
        f = ⟨g.code, regSource g.place, g.temporaries⟩ := by
  unfold fetch at h
  cases hnumber : e.number?.bind immediate? with
  | some v =>
    rw [hnumber] at h
    cases h
    exact .inl ⟨v, rfl, rfl, rfl⟩
  | none =>
    rw [hnumber] at h
    obtain ⟨g, m₁, hg, h⟩ := run_bind_eq_ok.1 h
    cases h
    rcases fetchRegister_eq_ok hg with ⟨name, r, code, rfl, hread, rfl⟩ | ⟨hvar, hg⟩
    · exact .inr (.inl ⟨name, r, code, rfl, hread, rfl⟩)
    · exact .inr (.inr ⟨⟨hnumber, hvar⟩, g, hg, rfl⟩)

theorem fetch_eq_ok_of_isLoaded {f : Fetched Source} (he : e.IsLoaded)
    (h : fetch env e ld m = .ok (f, m')) :
    ∃ t m₁ code, temp m = .ok (t, m₁) ∧ ld t m₁ = .ok (code, m') ∧
      f = ⟨code, regSource t, [t]⟩ := by
  rcases fetch_eq_ok h with ⟨v, hv, -⟩ | ⟨name, _, _, rfl, -⟩ | ⟨-, g, hg, rfl⟩
  · rw [he.1] at hv
    cases hv
  · exact (he.2 name rfl).elim
  · obtain ⟨t, m₁, code, ht, hcode, rfl⟩ := viaTemporary_eq_ok hg
    exact ⟨t, m₁, code, ht, hcode, rfl⟩

/-- The code of an operator: left side, right side, operation. -/
theorem load_binary_eq_ok (h : load env (.binary op l r) dst m = .ok (code, m')) :
    ∃ a m₁ b m₂ is m₃, fetch env l (load env l) m = .ok (a, m₁) ∧
      fetch env r (load env r) m₁ = .ok (b, m₂) ∧ operate op dst a.place b.place m₂ = .ok (is, m₃) ∧
      code = a.code ++ (b.code ++ plain is) ∧ NamesKept m₃ m' := by
  obtain ⟨a, m₁, ha, h⟩ := run_bind_eq_ok.1 h
  obtain ⟨b, m₂, hb, h⟩ := run_bind_eq_ok.1 h
  obtain ⟨is, m₃, his, h⟩ := run_bind_eq_ok.1 h
  obtain ⟨⟨⟩, m₄, ⟨⟩, h⟩ := run_bind_eq_ok.1 h
  cases h
  exact ⟨a, m₁, b, m₂, is, m₃, ha, hb, his, append_assoc .., namesKept_releaseAll ..⟩

/-- The code of a logical operator, both sides in temporaries. -/
theorem load_logical_eq_ok {op : LogicalOp}
    (h : load env (.logical op l r) dst m = .ok (code, m')) :
    ∃ a m₁ b m₂, viaTemporary (load env l) m = .ok (a, m₁) ∧
      viaTemporary (load env r) m₁ = .ok (b, m₂) ∧
      code = a.code ++ (b.code ++ plain (combine op dst a.place b.place)) ∧ NamesKept m₂ m' := by
  obtain ⟨a, m₁, ha, h⟩ := run_bind_eq_ok.1 h
  obtain ⟨b, m₂, hb, h⟩ := run_bind_eq_ok.1 h
  obtain ⟨⟨⟩, m₃, ⟨⟩, h⟩ := run_bind_eq_ok.1 h
  cases h
  exact ⟨a, m₁, b, m₂, ha, hb, append_assoc .., namesKept_releaseAll ..⟩

/-- The code of a negation. -/
theorem load_neg_eq_ok (h : load env (.unary .neg e) dst m = .ok (code, m')) :
    ∃ a m₁, fetch env e (load env e) m = .ok (a, m₁) ∧
      code = a.code ++ plain [arith .sub dst (.imm 0) a.place] ∧ NamesKept m₁ m' := by
  obtain ⟨a, m₁, ha, h⟩ := run_bind_eq_ok.1 h
  obtain ⟨⟨⟩, m₂, ⟨⟩, h⟩ := run_bind_eq_ok.1 h
  cases h
  exact ⟨a, m₁, ha, rfl, namesKept_releaseAll ..⟩

/-- The code of a logical negation. -/
theorem load_not_eq_ok (h : load env (.unary .not e) dst m = .ok (code, m')) :
    ∃ a m₁, viaTemporary (load env e) m = .ok (a, m₁) ∧
      code = a.code ++ plain (choose dst a.place 1 0) ∧ NamesKept m₁ m' := by
  obtain ⟨a, m₁, ha, h⟩ := run_bind_eq_ok.1 h
  obtain ⟨⟨⟩, m₂, ⟨⟩, h⟩ := run_bind_eq_ok.1 h
  cases h
  exact ⟨a, m₁, ha, rfl, namesKept_releaseAll ..⟩

/-- The code of a call, and the copy of its result. -/
theorem load_call_eq_ok {args : List Operand}
    (h : load env (.call callee args) dst m = .ok (code, m')) :
    ∃ calling m₁ result, callCode env callee (loads env args) m = .ok (calling, m₁) ∧
      code = calling ++ plain [copy dst result] ∧ NamesKept m₁ m' := by
  obtain ⟨calling, m₁, hcalling, h⟩ := run_bind_eq_ok.1 h
  obtain ⟨result, m₂, hresult, h⟩ := run_bind_eq_ok.1 h
  cases h
  refine ⟨calling, m₁, result.register, hcalling, rfl, fun r x hr => ?_⟩
  rcases bindGlobal_cases hresult with ⟨-, rfl, -⟩ | ⟨-, hfree, rfl, -⟩
  · exact hr
  · rw [holder_take, if_neg, hr]
    rintro rfl
    rw [hfree] at hr
    cases hr

/-- The arguments of a declared function are passed, and then it is called. -/
theorem callCode_eq_ok {args : List Load} (h : callCode env callee args m = .ok (code, m')) :
    ∃ piece, callPiece env callee = .ok piece ∧
      (env.signatures.lookup callee = none ∧ code = [piece] ∨
        ∃ params targets m₁ passing, env.signatures.lookup callee = some params ∧
          params.length = args.length ∧ parameterRegisters callee params m = .ok (targets, m₁) ∧
          loadArguments targets args m₁ = .ok (passing, m') ∧ code = passing ++ [piece]) := by
  have hcall {passing : List Piece} {m₁ : RegisterMap}
      (h : (do return passing ++ [← liftM (callPiece env callee)] : Allocation (List Piece)) m₁ =
        .ok (code, m')) :
      ∃ piece, callPiece env callee = .ok piece ∧ code = passing ++ [piece] ∧ m' = m₁ := by
    obtain ⟨piece, m₂, hpiece, h⟩ := run_bind_eq_ok.1 h
    cases h
    obtain ⟨_, hcalled, ⟨⟩⟩ := bind_eq_ok.1 hpiece
    exact ⟨piece, hcalled, rfl, rfl⟩
  unfold callCode at h
  cases hparams : env.signatures.lookup callee with
  | none =>
    rw [hparams] at h
    obtain ⟨passing, m₁, ⟨⟩, h⟩ := run_bind_eq_ok.1 h
    obtain ⟨piece, hpiece, rfl, -⟩ := hcall h
    exact ⟨piece, hpiece, .inl ⟨rfl, rfl⟩⟩
  | some params =>
    rw [hparams] at h
    dsimp only at h
    split at h
    · rename_i hlength
      obtain ⟨targets, m₁, htargets, h⟩ := run_bind_eq_ok.1 h
      obtain ⟨passing, m₂, hpassing, h⟩ := run_bind_eq_ok.1 h
      obtain ⟨piece, hpiece, rfl, rfl⟩ := hcall h
      exact ⟨piece, hpiece,
        .inr ⟨params, targets, m₁, passing, rfl, hlength, htargets, hpassing, rfl⟩⟩
    · obtain ⟨_, _, ⟨⟩, -⟩ := run_bind_eq_ok.1 h

/-- The code of one argument among several. -/
theorem loadTemporaries_append_eq_ok {xs ys : List Load} {fs : List (Fetched Register)}
    (h : loadTemporaries (xs ++ ld :: ys) m = .ok (fs, m')) :
    ∃ gs m₁ g m₂ hs, loadTemporaries xs m = .ok (gs, m₁) ∧ viaTemporary ld m₁ = .ok (g, m₂) ∧
      loadTemporaries ys m₂ = .ok (hs, m') ∧ fs = gs ++ g :: hs := by
  induction xs generalizing m fs with
  | nil =>
    obtain ⟨g, m₁, hg, h⟩ := run_bind_eq_ok.1 h
    obtain ⟨hs, m₂, hhs, h⟩ := run_bind_eq_ok.1 h
    cases h
    exact ⟨[], m, g, m₁, hs, rfl, hg, hhs, rfl⟩
  | cons x xs ih =>
    obtain ⟨f, m₁, hf, h⟩ := run_bind_eq_ok.1 h
    obtain ⟨gs, m₂, hgs, h⟩ := run_bind_eq_ok.1 h
    cases h
    obtain ⟨gs', m₃, g, m₄, hs, hgs', hg, hhs, rfl⟩ := ih hgs
    exact ⟨f :: gs', m₃, g, m₄, hs,
      run_bind_eq_ok.2 ⟨f, m₁, hf, run_bind_eq_ok.2 ⟨gs', m₃, hgs', rfl⟩⟩, hg, hhs, rfl⟩

theorem loads_append (env : Environment) (xs : List Operand) (e : Operand) (ys : List Operand) :
    loads env (xs ++ e :: ys) = loads env xs ++ load env e :: loads env ys := by
  induction xs with
  | nil => rfl
  | cons x xs ih => rw [cons_append, loads, ih]; rfl

theorem length_loads_ne_one {before after : List Operand} (h : before ++ after ≠ []) :
    (loads env before ++ load env e :: loads env after).length ≠ 1 := by
  rw [← length_pos_iff, length_append] at h
  rw [length_append, length_cons, length_loads, length_loads]
  omega

/-- Several arguments go to temporaries first. -/
theorem loadArguments_eq_ok {targets : List Register} {args : List Load} (hargs : args.length ≠ 1)
    (h : loadArguments targets args m = .ok (code, m')) :
    ∃ fs m₁, loadTemporaries args m = .ok (fs, m₁) ∧
      code = fs.flatMap (·.code) ++
        plain (List.zipWith (fun target f => copy target f.place) targets fs) ∧
      NamesKept m₁ m' := by
  unfold loadArguments at h
  split at h
  · exact (hargs rfl).elim
  · obtain ⟨fs, m₁, hfs, h⟩ := run_bind_eq_ok.1 h
    obtain ⟨⟨⟩, m₂, ⟨⟩, h⟩ := run_bind_eq_ok.1 h
    cases h
    exact ⟨fs, m₁, hfs, rfl, namesKept_releaseAll ..⟩

end Results

/-! ## What loading sets -/

theorem sets_loadNatural (dst : Register) (n : Nat) : Sets (loadNatural dst n) dst := by
  rw [loadNatural]
  split
  · simp
  · simp

theorem sets_loadConstant (dst : Register) (v : Int64) : Sets (loadConstant dst v) dst := by
  rw [loadConstant]
  split
  · exact sets_loadNatural ..
  · split
    · simp
    · simp

theorem sets_operate {op : BinaryOp} {a b : Source} :
    Yields (operate op dst a b) fun is => Sets is dst := by
  have hless {a b : Source} : Yields (compareLess dst a b) fun is => Sets is dst :=
    Yields.bind_any fun e => Yields.bind_any fun t => Yields.bind_any fun _ =>
      Yields.pure (by simp [lessThan])
  have hnot {a b : Source} : Yields (compareNot dst a b) fun is => Sets is dst :=
    Yields.bind_any fun q => Yields.bind_any fun code => Yields.bind_any fun _ =>
      Yields.pure (by simp)
  have hequal {same differ : UInt8} :
      Yields (compareEqual dst a b same differ) fun is => Sets is dst :=
    Yields.bind_any fun d => Yields.bind_any fun _ => Yields.pure (by simp [choose])
  cases op with
  | add | sub | mul | div => exact Yields.pure (by simp)
  | mod => exact Yields.bind_any fun q => Yields.bind_any fun _ => Yields.pure (by simp [remainder])
  | lt | gt => exact hless
  | ltEq | gtEq => exact hnot
  | eq | notEq => exact hequal

/-- Loading an operand sets the register. -/
theorem sets_load {env : Environment}
    {code : List Piece} (h : load env e dst m = .ok (code, m')) : Sets (Piece.all code) dst := by
  cases e with
  | number n =>
    unfold load at h
    cases hword : word? n with
    | none =>
      rw [hword] at h
      cases h
    | some v =>
      rw [hword] at h
      cases h
      rw [Piece.all_plain]
      exact sets_loadConstant ..
  | text s => cases h
  | var name =>
    obtain ⟨⟨r, front⟩, m₁, -, ⟨⟩⟩ := run_bind_eq_ok.1 h
    simp
  | binary op l r =>
    obtain ⟨a, m₁, b, m₂, is, m₃, -, -, his, rfl, -⟩ := load_binary_eq_ok h
    simp [sets_operate _ _ _ his]
  | unary op e =>
    cases op with
    | neg =>
      obtain ⟨a, m₁, -, rfl, -⟩ := load_neg_eq_ok h
      simp
    | not =>
      obtain ⟨a, m₁, -, rfl, -⟩ := load_not_eq_ok h
      simp [choose]
  | logical op l r =>
    obtain ⟨a, m₁, b, m₂, -, -, rfl, -⟩ := load_logical_eq_ok h
    cases op <;> simp [combine, conjunction, disjunction]
  | call callee args =>
    obtain ⟨calling, m₁, result, -, rfl, -⟩ := load_call_eq_ok h
    simp

/-! ## Parts -/

/-- Passing the arguments of a call from the map `m` on comes, behind the code `front`, to an
argument that is loaded into `dst` from the map `m'` on. -/
inductive CallPart (env : Environment) (callee : String) :
    (args : List Operand) → (m : RegisterMap) → (front : List Piece) → (arg : Operand) →
      (dst : Register) → (m' : RegisterMap) → Prop where
  /-- One argument goes to its parameter at once. -/
  | single {param : String} {arg : Operand} {target : Register} {m m₁ : RegisterMap} :
      env.signatures.lookup callee = some [param] →
      parameterRegisters callee [param] m = .ok ([target], m₁) →
      CallPart env callee [arg] m [] arg target m₁
  | several {params : List String} {before after : List Operand} {arg : Operand}
      {targets : List Register} {fs : List (Fetched Register)} {t : Register}
      {m m₁ m₂ m₃ : RegisterMap} : env.signatures.lookup callee = some params →
      before ++ after ≠ [] → parameterRegisters callee params m = .ok (targets, m₁) →
      loadTemporaries (loads env before) m₁ = .ok (fs, m₂) → temp m₂ = .ok (t, m₃) →
      CallPart env callee (before ++ arg :: after) m (fs.flatMap (·.code)) arg t m₃

/-- Loading the operand `e` into `dst` from the map `m` on comes, behind the code `front`, to its
part `e'`, which is loaded into `dst'` from the map `m'` on. -/
inductive LoadsPart (env : Environment) : (e : Operand) → (dst : Register) → (m : RegisterMap) →
    (front : List Piece) → (e' : Operand) → (dst' : Register) → (m' : RegisterMap) → Prop where
  | left {op : BinaryOp} {l r : Operand} {dst t : Register} {m m₁ : RegisterMap} : l.IsLoaded →
      temp m = .ok (t, m₁) → LoadsPart env (.binary op l r) dst m [] l t m₁
  | right {op : BinaryOp} {l r : Operand} {dst t : Register} {m m₁ m₂ : RegisterMap}
      {a : Fetched Source} : fetch env l (load env l) m = .ok (a, m₁) → r.IsLoaded →
      temp m₁ = .ok (t, m₂) → LoadsPart env (.binary op l r) dst m a.code r t m₂
  | neg {e : Operand} {dst t : Register} {m m₁ : RegisterMap} : e.IsLoaded →
      temp m = .ok (t, m₁) → LoadsPart env (.unary .neg e) dst m [] e t m₁
  | not {e : Operand} {dst t : Register} {m m₁ : RegisterMap} :
      temp m = .ok (t, m₁) → LoadsPart env (.unary .not e) dst m [] e t m₁
  | logicalLeft {op : LogicalOp} {l r : Operand} {dst t : Register} {m m₁ : RegisterMap} :
      temp m = .ok (t, m₁) → LoadsPart env (.logical op l r) dst m [] l t m₁
  | logicalRight {op : LogicalOp} {l r : Operand} {dst t : Register} {m m₁ m₂ : RegisterMap}
      {a : Fetched Register} : viaTemporary (load env l) m = .ok (a, m₁) →
      temp m₁ = .ok (t, m₂) → LoadsPart env (.logical op l r) dst m a.code r t m₂
  | argument {callee : String} {args : List Operand} {arg : Operand} {dst t : Register}
      {m m₁ : RegisterMap} {front : List Piece} : CallPart env callee args m front arg t m₁ →
      LoadsPart env (.call callee args) dst m front arg t m₁

section Parts

variable {env : Environment} {args : List Operand} {e' : Operand}
variable {dst' : Register} {m₂ : RegisterMap} {code : List Piece}
/-- The code of an argument in that of its call. -/
theorem CallPart.code_eq (h : CallPart env callee args m front e dst m')
    (hcode : callCode env callee (loads env args) m = .ok (code, m₂)) :
    ∃ inner m₁ back, load env e dst m' = .ok (inner, m₁) ∧ code = front ++ (inner ++ back) := by
  obtain ⟨piece, -, ⟨hnone, -⟩ | ⟨params, targets, m₁, passing, hparams, hlength, htargets, hpassing,
    rfl⟩⟩ := callCode_eq_ok hcode
  · cases h with
    | single hsome | several hsome => simp [hnone] at hsome
  · cases h with
    | single hsome htarget =>
      cases hparams.symm.trans hsome
      cases htargets.symm.trans htarget
      exact ⟨passing, m₂, [piece], hpassing, rfl⟩
    | @several _ before after arg _ fs t _ _ _ _ hsome hmore htarget hbefore htemp =>
      cases hparams.symm.trans hsome
      cases htargets.symm.trans htarget
      rw [loads_append] at hpassing
      obtain ⟨gs, m₃, hgs, hcopies, -⟩ := loadArguments_eq_ok (length_loads_ne_one hmore) hpassing
      generalize plain (List.zipWith _ targets gs) = copies at hcopies
      subst hcopies
      obtain ⟨gs', m₄, g, m₅, hs, hgs', hg, -, rfl⟩ := loadTemporaries_append_eq_ok hgs
      cases hbefore.symm.trans hgs'
      obtain ⟨t', m₆, inner, ht', hinner, rfl⟩ := viaTemporary_eq_ok hg
      cases htemp.symm.trans ht'
      exact ⟨inner, m₅, hs.flatMap (·.code) ++ copies ++ [piece], hinner, by simp⟩

/-- **The code of a part in that of the operand.** -/
theorem LoadsPart.code_eq (h : LoadsPart env e dst m front e' dst' m')
    (hcode : load env e dst m = .ok (code, m₂)) :
    ∃ inner m₁ back, load env e' dst' m' = .ok (inner, m₁) ∧ code = front ++ (inner ++ back) := by
  cases h with
  | left hl ht =>
    obtain ⟨a, m₁, b, m₃, is, -, ha, -, -, rfl, -⟩ := load_binary_eq_ok hcode
    obtain ⟨t, m₄, inner, ht', hinner, rfl⟩ := fetch_eq_ok_of_isLoaded hl ha
    cases ht.symm.trans ht'
    exact ⟨inner, m₁, _, hinner, rfl⟩
  | right ha hr ht =>
    obtain ⟨a, m₁, b, m₃, is, -, ha', hb, -, rfl, -⟩ := load_binary_eq_ok hcode
    cases ha.symm.trans ha'
    obtain ⟨t, m₄, inner, ht', hinner, rfl⟩ := fetch_eq_ok_of_isLoaded hr hb
    cases ht.symm.trans ht'
    exact ⟨inner, m₃, _, hinner, rfl⟩
  | neg he ht =>
    obtain ⟨a, m₁, ha, rfl, -⟩ := load_neg_eq_ok hcode
    obtain ⟨t, m₄, inner, ht', hinner, rfl⟩ := fetch_eq_ok_of_isLoaded he ha
    cases ht.symm.trans ht'
    exact ⟨inner, m₁, _, hinner, rfl⟩
  | not ht =>
    obtain ⟨a, m₁, ha, rfl, -⟩ := load_not_eq_ok hcode
    obtain ⟨t, m₄, inner, ht', hinner, rfl⟩ := viaTemporary_eq_ok ha
    cases ht.symm.trans ht'
    exact ⟨inner, m₁, _, hinner, rfl⟩
  | logicalLeft ht =>
    obtain ⟨a, m₁, b, m₃, ha, -, rfl, -⟩ := load_logical_eq_ok hcode
    obtain ⟨t, m₄, inner, ht', hinner, rfl⟩ := viaTemporary_eq_ok ha
    cases ht.symm.trans ht'
    exact ⟨inner, m₁, _, hinner, rfl⟩
  | logicalRight ha ht =>
    obtain ⟨a, m₁, b, m₃, ha', hb, rfl, -⟩ := load_logical_eq_ok hcode
    cases ha.symm.trans ha'
    obtain ⟨t, m₄, inner, ht', hinner, rfl⟩ := viaTemporary_eq_ok hb
    cases ht.symm.trans ht'
    exact ⟨inner, m₃, _, hinner, rfl⟩
  | argument hpart =>
    obtain ⟨calling, m₁, result, hcalling, rfl, -⟩ := load_call_eq_ok hcode
    obtain ⟨inner, m₃, back, hinner, rfl⟩ := hpart.code_eq hcalling
    exact ⟨inner, m₃, back ++ plain [copy dst result], hinner, by simp⟩

/-- The code in front of an argument is formed, and the argument calls what the call does. -/
theorem CallPart.formed (h : CallPart env callee args m front e dst m')
    (hcalls : ∀ c ∈ Operand.callsAll args, c ∈ calls) :
    Formed env.toFunctionTable calls front ∧ ∀ c ∈ e.calls, c ∈ calls := by
  cases h with
  | single =>
    exact ⟨.nil, fun c hc => hcalls c ((Operand.subset_all_of_mem (mem_singleton_self e)).2 hc)⟩
  | @several _ before after _ _ fs _ _ m₁ m₂ _ _ _ _ hfs _ =>
    rw [Operand.callsAll_eq_flatMap, flatMap_append, flatMap_cons,
      ← Operand.callsAll_eq_flatMap] at hcalls
    obtain ⟨hbefore, hrest⟩ := forall_mem_append.1 hcalls
    exact ⟨formed_loadTemporaries env hbefore _ _ _ hfs, (forall_mem_append.1 hrest).1⟩

theorem LoadsPart.formed (h : LoadsPart env e dst m front e' dst' m')
    (hcalls : ∀ c ∈ e.calls, c ∈ calls) :
    Formed env.toFunctionTable calls front ∧ ∀ c ∈ e'.calls, c ∈ calls := by
  cases h with
  | left | logicalLeft => exact ⟨.nil, fun c hc => hcalls c (mem_append_left _ hc)⟩
  | neg | not => exact ⟨.nil, hcalls⟩
  | @right _ l r _ _ _ m₁ _ a ha =>
    obtain ⟨hl, hr⟩ := forall_mem_append.1 hcalls
    exact ⟨formed_fetch env hl m a m₁ ha, hr⟩
  | @logicalRight _ l r _ _ _ m₁ _ a ha =>
    obtain ⟨hl, hr⟩ := forall_mem_append.1 hcalls
    exact ⟨formed_viaTemporary env hl m a m₁ ha, hr⟩
  | argument hpart => exact hpart.formed fun c hc => hcalls c (mem_cons_of_mem _ hc)

theorem CallPart.since (h : CallPart env callee args m front e dst m')
    (hp : p.Grants (parameterKeys env.signatures callee) (parameterKeys env.signatures callee))
    (hargs : ∀ a ∈ args, p.Admits env.signatures env.scope a) (hm : p.Since m) :
    p.Admits env.signatures env.scope e ∧ p.Since m' := by
  have htargets {params : List String} {targets : List Register} {m₁ : RegisterMap}
      (hparams : env.signatures.lookup callee = some params)
      (hbind : parameterRegisters callee params m = .ok (targets, m₁)) : p.Since m₁ := by
    rw [parameterKeys, hparams] at hp
    exact (owns_parameterRegisters hp.1 hp.2).since hm hbind
  cases h with
  | single hparams hbind => exact ⟨hargs e (mem_singleton_self e), htargets hparams hbind⟩
  | @several _ before after _ _ fs t _ m₁ m₂ _ hparams _ hbind hfs ht =>
    have hbefore : ∀ a ∈ before, p.Admits env.signatures env.scope a :=
      fun a ha => hargs a (mem_append_left _ ha)
    have hm₂ : p.Since m₂ := (owns_loadTemporaries (owns_loads before hbefore)).since
      (htargets hparams hbind) hfs
    exact ⟨hargs e (by simp), owns_temp.since hm₂ ht⟩

theorem LoadsPart.since (h : LoadsPart env e dst m front e' dst' m')
    (he : p.Admits env.signatures env.scope e) (hm : p.Since m) :
    p.Admits env.signatures env.scope e' ∧ p.Since m' := by
  have htemp {m m' : RegisterMap} {t : Register} (hm : p.Since m) (ht : temp m = .ok (t, m')) :
      p.Since m' := owns_temp.since hm ht
  cases h with
  | left _ ht | logicalLeft ht => exact ⟨(he.sides rfl rfl).1, htemp hm ht⟩
  | neg _ ht | not ht => exact ⟨he, htemp hm ht⟩
  | @right _ l r _ _ _ m₁ _ a ha _ ht =>
    obtain ⟨hl, hr⟩ := he.sides rfl rfl
    have hm₁ : p.Since m₁ := (owns_fetch hl (owns_load l hl)).since hm ha
    exact ⟨hr, htemp hm₁ ht⟩
  | @logicalRight _ l r _ _ _ m₁ _ a ha ht =>
    obtain ⟨hl, hr⟩ := he.sides rfl rfl
    have hm₁ : p.Since m₁ := (owns_viaTemporary (owns_load l hl)).since hm ha
    exact ⟨hr, htemp hm₁ ht⟩
  | @argument callee args _ _ _ _ _ _ hpart =>
    obtain ⟨-, hnames, hassigned⟩ := (admits_iff.1 he).2 callee (mem_cons_self ..)
    exact hpart.since ⟨hnames, hassigned⟩ he.args hm

end Parts

/-! ## Results of drafting -/

section Drafts

variable {table : FunctionTable} {b b' : Bindings} {code : List Piece}

/-- The code loads the operand into a temporary and does no more. -/
def LoadsTemporary (table : FunctionTable) (e : Operand) (b b' : Bindings) (code : List Piece) :
    Prop :=
  ∃ t m m₁ m', temp b.registers = .ok (t, m) ∧ load ⟨table, b.scope⟩ e t m = .ok (code, m₁) ∧
    b' = { b with registers := m' } ∧ NamesKept m₁ m'

theorem loadsTemporary_of_draftTest {test : Register} (hvar : ∀ name, e ≠ .var name)
    (h : draftTest table e b = .ok ((code, test), b')) : LoadsTemporary table e b b' code := by
  obtain ⟨f, m, hf, rfl, -, rfl⟩ := draftTest_eq_ok h
  rcases fetchRegister_eq_ok hf with ⟨name, _, _, rfl, -⟩ | ⟨-, hf⟩
  · exact (hvar name rfl).elim
  · obtain ⟨t, m₁, code, ht, hload, rfl⟩ := viaTemporary_eq_ok hf
    exact ⟨t, m₁, m, _, ht, hload, rfl, namesKept_releaseAll ..⟩

/-- A loop's test that is no variable goes to a temporary. -/
theorem loadsTemporary_of_draftLoopTest {test : LoopTest} (hvar : ∀ name, e ≠ .var name)
    (h : draftLoopTest table e b = .ok ((code, test), b')) : LoadsTemporary table e b b' code := by
  obtain ⟨_, _, ⟨⟩, h⟩ := run_bind_eq_ok.1 h
  split at h
  · exact (hvar _ rfl).elim
  · obtain ⟨f, m, hm, ⟨⟩⟩ := request_bind_eq_ok h
    obtain ⟨t, m₁, code, ht, hload, rfl⟩ := viaTemporary_eq_ok hm
    exact ⟨t, m₁, m, m, ht, hload, rfl, fun _ _ => id⟩

/-- An expression that is no call goes to a temporary. -/
theorem loadsTemporary_of_draftExpr (hcall : ∀ callee args, e ≠ .call callee args)
    (h : draftPlain table (.expr e) b = .ok (code, b')) : LoadsTemporary table e b b' code := by
  obtain ⟨f, m, hm, rfl, rfl⟩ := draftExpr_eq_ok hcall h
  obtain ⟨t, m₁, code, ht, hload, rfl⟩ := viaTemporary_eq_ok hm
  exact ⟨t, m₁, m, _, ht, hload, rfl, namesKept_releaseAll ..⟩

end Drafts

end Assembly

/-! ## The operands of a stretch -/

theorem mem_calls_of_mem_operands {i : Instr} (h : ∀ c ∈ instrCalls i, c ∈ calls) {value : Operand}
    (hvalue : value ∈ i.operands) : ∀ c ∈ value.calls, c ∈ calls :=
  fun c hc => h c (mem_append_right _ (mem_flatMap.2 ⟨value, hvalue, hc⟩))

namespace Site

/-- What the operands of a stretch are lowered in. -/
def env (table : FunctionTable) (σ : Site) : Environment := ⟨table, σ.after.scope⟩

/-- The code of the stretch comes, behind `front`, to the operand, loaded into the register from the
map on. -/
inductive Loads (table : FunctionTable) (σ : Site) :
    (front : List Piece) → Operand → Register → RegisterMap → Prop where
  | set {name : String} {e : Operand} {b : Binding} {m : RegisterMap} :
      σ.stretch = .plain (.assign name e) ∨ σ.stretch = .plain (.declare name e) →
      RegisterMap.bind (keyIn σ.after.scope name) σ.before.registers = .ok (b, m) →
      Loads table σ [] e b.register m
  | ret {e : Operand} {b : Binding} {m : RegisterMap} : σ.stretch = .plain (.ret e) →
      bindGlobal returnName σ.before.registers = .ok (b, m) → Loads table σ [] e b.register m
  | use {e : Operand} {t : Register} {m : RegisterMap} :
      σ.stretch = .plain (.print e) ∨ σ.stretch = .test e ∨ σ.stretch = .loopTest e ∨
        σ.stretch = .plain (.expr e) ∧ (∀ callee args, e ≠ .call callee args) →
      (∀ name, e ≠ .var name) → temp σ.before.registers = .ok (t, m) → Loads table σ [] e t m
  | again {e : Operand} {t : Register} : σ.stretch = .again (.computed t e) e →
      Loads table σ [] e t σ.before.registers
  | argument {callee : String} {args : List Operand} {front : List Piece} {e : Operand}
      {dst : Register} {m : RegisterMap} :
      σ.stretch = .plain (.call callee args) ∨ σ.stretch = .plain (.expr (.call callee args)) →
      CallPart (σ.env table) callee args σ.before.registers front e dst m →
      Loads table σ front e dst m
  | part {front front' : List Piece} {e e' : Operand} {dst dst' : Register} {m m' : RegisterMap} :
      Loads table σ front e dst m → LoadsPart (σ.env table) e dst m front' e' dst' m' →
      Loads table σ (front ++ front') e' dst' m'

variable {table : FunctionTable} {σ : Site}
/-- **The code of an operand in that of a stretch.** -/
theorem Loads.code_eq (h : σ.Loads table front e dst m)
    (hσ : σ.stretch.draft table σ.before = .ok (σ.code, σ.after)) :
    ∃ inner m' back, load (σ.env table) e dst m = .ok (inner, m') ∧
      σ.code = front ++ (inner ++ back) := by
  obtain ⟨stretch, before, after, code, start⟩ := σ
  dsimp only at hσ
  -- lowering is a function, so the part of the stretch that is known fixes the requests after it
  induction h with
  | set hstretch hbind =>
    rcases hstretch with heq | heq
    · cases heq
      obtain ⟨binding, m₁, m', hm₁, hload, rfl⟩ := draftAssign_eq_ok hσ
      cases hbind.symm.trans hm₁
      exact ⟨code, m', [], hload, (append_nil _).symm⟩
    · cases heq
      obtain ⟨_, _, ⟨⟩, hassign⟩ := run_bind_eq_ok.1 hσ
      obtain ⟨binding, m₁, m', hm₁, hload, rfl⟩ := draftAssign_eq_ok hassign
      cases hbind.symm.trans hm₁
      exact ⟨code, m', [], hload, (append_nil _).symm⟩
  | ret hstretch hbind =>
    cases hstretch
    obtain ⟨binding, m₁, inner, m₂, hm₁, hm₂, rfl, rfl⟩ := draftRet_eq_ok hσ
    cases hbind.symm.trans hm₁
    exact ⟨inner, m₂, _, hm₂, rfl⟩
  | @use e t m hstretch hvar ht =>
    have hfound {inner back : List Piece} (h : LoadsTemporary table e before after inner)
        (hcode : code = inner ++ back) : ∃ inner m' back,
          load (Site.env table ⟨stretch, before, after, code, start⟩) e t m = .ok (inner, m') ∧
            code = [] ++ (inner ++ back) := by
      obtain ⟨t', m₁, m₂, m', ht', hload, rfl, -⟩ := h
      cases ht.symm.trans ht'
      exact ⟨inner, m₂, back, hload, hcode⟩
    rcases hstretch with heq | heq | heq | ⟨heq, hcall⟩
    · cases heq
      obtain ⟨⟨inner, r⟩, b₁, htest, hprint⟩ := run_bind_eq_ok.1 hσ
      cases hprint
      exact hfound (loadsTemporary_of_draftTest hvar htest) rfl
    · cases heq
      obtain ⟨⟨inner, r⟩, b₁, htest, hreturn⟩ := run_bind_eq_ok.1 hσ
      cases hreturn
      exact hfound (loadsTemporary_of_draftTest hvar htest) (append_nil _).symm
    · cases heq
      obtain ⟨⟨inner, r⟩, b₁, htest, hreturn⟩ := run_bind_eq_ok.1 hσ
      cases hreturn
      exact hfound (loadsTemporary_of_draftLoopTest hvar htest) (append_nil _).symm
    · cases heq
      exact hfound (loadsTemporary_of_draftExpr hcall hσ) (append_nil _).symm
  | again hstretch =>
    cases hstretch
    obtain ⟨m', hm', rfl⟩ := environment_request_eq_ok hσ
    exact ⟨code, m', [], hm', (append_nil _).symm⟩
  | argument hstretch hpart =>
    rcases hstretch with heq | heq <;> cases heq <;>
      obtain ⟨m', hm', rfl⟩ := environment_request_eq_ok hσ <;> exact hpart.code_eq hm'
  | part _ hpart ih =>
    obtain ⟨inner, m₁, back, hinner, rfl⟩ := ih
    obtain ⟨inner', m₂, back', hinner', rfl⟩ := hpart.code_eq hinner
    exact ⟨inner', m₂, back' ++ back, hinner', by simp⟩

theorem mem_operands_of_use
    (h : σ.stretch = .plain (.print e) ∨ σ.stretch = .test e ∨ σ.stretch = .loopTest e ∨
      σ.stretch = .plain (.expr e) ∧ (∀ callee args, e ≠ .call callee args)) :
    e ∈ σ.stretch.instr.operands := by
  rcases h with heq | heq | heq | ⟨heq, -⟩ <;> rw [heq] <;> exact mem_singleton_self e

theorem mem_operands_of_set {name : String}
    (h : σ.stretch = .plain (.assign name e) ∨ σ.stretch = .plain (.declare name e)) :
    e ∈ σ.stretch.instr.operands := by
  rcases h with heq | heq <;> rw [heq] <;> exact mem_singleton_self e

/-- The code in front of an operand is formed. -/
theorem Loads.formed (h : σ.Loads table front e dst m)
    (hcalls : ∀ c ∈ instrCalls σ.stretch.instr, c ∈ calls) :
    Formed table calls front ∧ ∀ c ∈ e.calls, c ∈ calls := by
  induction h with
  | set hstretch =>
    exact ⟨.nil, mem_calls_of_mem_operands hcalls (mem_operands_of_set hstretch)⟩
  | ret hstretch | again hstretch =>
    refine ⟨.nil, mem_calls_of_mem_operands hcalls ?_⟩
    rw [hstretch]
    exact mem_singleton_self _
  | use hstretch => exact ⟨.nil, mem_calls_of_mem_operands hcalls (mem_operands_of_use hstretch)⟩
  | @argument callee args _ _ _ _ hstretch hpart =>
    refine hpart.formed fun c hc => hcalls c ?_
    rcases hstretch with heq | heq
    · rw [heq]
      rw [Operand.callsAll_eq_flatMap] at hc
      exact mem_append_right _ hc
    · rw [heq]
      exact mem_append_right _ (mem_flatMap.2
        ⟨_, mem_singleton_self _, mem_cons_of_mem _ hc⟩)
  | part _ hpart ih =>
    obtain ⟨hfront, he⟩ := ih
    obtain ⟨hfront', he'⟩ := hpart.formed he
    exact ⟨hfront.append hfront', he'⟩

/-- What the permit of a stretch allows reaches its operands. -/
theorem Loads.since (h : σ.Loads table front e dst m)
    (hscope : σ.after.scope = σ.stretch.instr.scopeAfter σ.before.scope)
    (hp : p.Grants (σ.mentions table.signatures) (σ.assigns table.signatures))
    (hσ : p.Since σ.before.registers) : p.Admits table.signatures σ.after.scope e ∧ p.Since m := by
  have hadmits {e : Operand} (he : e ∈ σ.stretch.instr.operands) :
      p.Admits table.signatures σ.after.scope e :=
    hscope ▸ admits_of_mem_operands hp e he
  have htargets := (grants_append.1 hp).2
  induction h with
  | @set name e b m hstretch hbind =>
    refine ⟨hadmits (mem_operands_of_set hstretch), (hσ.bind ?_ hbind).1⟩
    rw [hscope]
    refine htargets.1 ?_
    rcases hstretch with heq | heq <;> rw [heq] <;> exact mem_singleton_self _
  | ret hstretch hbind =>
    rw [hstretch] at hadmits htargets
    refine ⟨hadmits (mem_singleton_self _), ?_⟩
    exact (owns_bindGlobal (htargets.1 (mem_singleton_self _))).since hσ hbind
  | use hstretch _ ht =>
    refine ⟨hadmits (mem_operands_of_use hstretch), ?_⟩
    exact owns_temp.since hσ ht
  | again hstretch =>
    rw [hstretch] at hadmits
    exact ⟨hadmits (mem_singleton_self _), hσ⟩
  | @argument callee args _ _ _ _ hstretch hpart =>
    rcases hstretch with heq | heq
    · rw [heq] at hadmits htargets
      exact hpart.since htargets (fun a ha => hadmits ha) hσ
    · rw [heq] at hadmits
      have hcall := hadmits (mem_singleton_self (Operand.call callee args))
      obtain ⟨-, hnames, hassigned⟩ := (admits_iff.1 hcall).2 callee (mem_cons_self ..)
      exact hpart.since ⟨hnames, hassigned⟩ hcall.args hσ
  | part _ hpart ih => exact hpart.since ih.1 ih.2

end Site

end ImpMachine
