import ImpMachine.Proofs.OperandParts

/-!
# The first read of a variable

A variable without a register takes one where it is first read, and top-level code sets the register
to zero there (`FirstRead`). What the stretch computes behind that leaves the register alone. So
every stretch gives registers to all variables that it reads (`Point.Begins.firstRead`).
-/

open List

namespace ImpMachine

open Assembly Linear RegisterMap

variable {args : List Operand} {callee name key : String} {fs : List (Fetched Register)} {σ : Site}
variable {env : Environment} {e : Operand} {table : FunctionTable} {P : Point} {image : Image}
variable {signatures : Signatures} {scope : Option Scope} {m m' : RegisterMap} {calls : List String}

/-! ## Keys of variables -/

namespace Assembly

/-- The key is neither that of a parameter nor, where there are functions, that of the result. -/
structure IsVariable (signatures : Signatures) (key : String) : Prop where
  eq_nil : key = returnName → signatures = []
  not_mem_parameterKeys : ∀ callee, key ∉ parameterKeys signatures callee

namespace IsVariable

theorem not_mem_assigns (h : IsVariable signatures key) (e : Operand) :
    key ∉ e.assigns signatures := by
  intro hkey
  obtain ⟨callee, -, hkey⟩ := mem_flatMap.1 hkey
  exact h.not_mem_parameterKeys callee hkey

/-- A variable is mentioned by an operand that reads it. -/
theorem mem_mentions_iff (h : IsVariable signatures key)
    (hdeclared : ∀ c ∈ e.calls, signatures.lookup c ≠ none) :
    key ∈ e.mentions signatures scope ↔ key ∈ e.reads.map (keyIn scope) := by
  refine mem_append.trans (or_iff_left ?_)
  rw [mem_flatMap]
  rintro ⟨callee, hcallee, hkey⟩
  rcases mem_cons.1 hkey with hkey | hkey
  · exact hdeclared callee hcallee (by rw [h.eq_nil hkey, lookup_nil])
  · exact h.not_mem_parameterKeys callee hkey

end IsVariable

end Assembly

namespace Permit

variable {p : Permit} {code : List Piece} {r : Register}

/-- A name that is not mentioned gets no register. -/
theorem Since.lookup_eq_none (h : p.Since m) (hkey : key ∉ p.names)
    (hnone : p.start.lookup key = none) : m.lookup key = none := by
  cases hlookup : m.lookup key with
  | none => rfl
  | some r =>
    have hr := holder_of_lookup hlookup
    cases hstart : p.start.holder r with
    | none => exact (hkey (h.named hstart hr)).elim
    | some holder =>
      obtain rfl := Option.some.inj (hr.symm.trans (h.holder hstart))
      obtain ⟨r', hr'⟩ := exists_lookup_of_holder hstart
      rw [hnone] at hr'
      cases hr'

/-- The code keeps the register of a name that it does not set. -/
theorem Makes.spares (h : p.Makes m code) (hkey : key ∉ p.assigned) (hlent : r ∉ p.lent)
    (hr : p.start.holder r = some (.named key)) :
    m.holder r = some (.named key) ∧ ¬Sets (Piece.all code) r := by
  refine ⟨h.since.holder hr, fun hset => ?_⟩
  rcases h.sets hset with hnone | ⟨x, hx, hnamed⟩ | hr'
  · rw [hr] at hnone
    cases hnone
  · rw [hr] at hnamed
    cases hnamed
    exact hkey hx
  · exact hlent hr'

theorem makes_operate {op : BinaryOp} {dst : Register} {a b : Source} {is : List Instruction}
    (h : operate op dst a b m = .ok (is, m')) : (Permit.mk [] [] [dst] m).Makes m' (plain is) := by
  obtain ⟨hm, hsteady, -, hsets⟩ := Obeys.of_start (p := Permit.mk [] [] [dst] m)
    (owns_operate op (mem_singleton_self dst)) h
  exact ⟨hm, hsteady, fun {r} hr => hsets r (by rwa [Piece.all_plain] at hr)⟩

theorem makes_loadTemporaries (h : loadTemporaries (loads env args) m = .ok (fs, m')) :
    (Permit.mk (args.flatMap (Operand.mentions env.signatures env.scope))
      (args.flatMap (Operand.assigns env.signatures)) [] m).Makes m' (fs.flatMap (·.code)) := by
  obtain ⟨hm, hsteady, -, hsets⟩ := Obeys.of_start (p := Permit.mk _ _ [] m)
    (owns_loadTemporaries (owns_loads args fun e he =>
      ⟨fun x hx => mem_flatMap.2 ⟨e, he, hx⟩, fun x hx => mem_flatMap.2 ⟨e, he, hx⟩⟩)) h
  exact ⟨hm, hsteady, fun {r} => hsets r⟩

theorem since_bindGlobal {x : String} {b : Binding} (h : bindGlobal x m = .ok (b, m')) :
    (Permit.mk [x] [] [] m).Since m' ∧ m'.holder b.register = some (.named x) := by
  refine ⟨(Obeys.of_start (p := Permit.mk [x] [] [] m)
    (owns_bindGlobal (mem_singleton_self x)) h).1, ?_⟩
  rcases bindGlobal_cases h with ⟨hholder, rfl, -⟩ | ⟨-, -, rfl, -⟩
  · exact hholder
  · rw [holder_take, if_pos rfl]

/-- The parameters of a function have their registers then. -/
theorem since_parameterRegisters {params : List String} {targets : List Register}
    (h : parameterRegisters callee params m = .ok (targets, m')) :
    (Permit.mk (params.map (qualified callee)) (params.map (qualified callee)) [] m).Since m' ∧
      ∀ t ∈ targets, m'.holder t ≠ none := by
  refine ⟨(Obeys.of_start (p := Permit.mk _ _ [] m)
    (owns_parameterRegisters (fun _ => id) fun _ => id) h).1, ?_⟩
  induction params generalizing m targets with
  | nil =>
    cases h
    simp
  | cons param rest ih =>
    obtain ⟨b, m₁, hb, h⟩ := run_bind_eq_ok.1 h
    obtain ⟨ts, m₂, hts, h⟩ := run_bind_eq_ok.1 h
    cases h
    have hm₂ := (Obeys.of_start (p := Permit.mk _ _ [] m₁)
      (owns_parameterRegisters (fun _ => id) fun _ => id) hts).1
    exact forall_mem_cons.2 ⟨by simp [hm₂.holder (since_bindGlobal hb).2], ih hts⟩

end Permit

/-! ## Operands -/

namespace Assembly

variable {f : Fetched Register}

/-- The code that sets a variable up which is read for the first time. -/
def zeroing (env : Environment) (r : Register) : List Piece :=
  if env.scope.isNone then plain [mov r 0] else []

/-- From the map `m` to `m'` a free register is given to the key and set up, and the code behind
that does not write it. -/
def FirstRead (env : Environment) (calls : List String) (key : String) (m : RegisterMap)
    (code : List Piece) (m' : RegisterMap) : Prop :=
  ∃ front r back, code = front ++ (zeroing env r ++ back) ∧
    Formed env.toFunctionTable calls front ∧ m.holder r = none ∧
    m'.holder r = some (.named key) ∧ ¬Sets (Piece.all back) r

variable {m₁ : RegisterMap} {code code' : List Piece}

namespace FirstRead

/-- Code behind the first read that leaves the register alone. -/
theorem append (h : FirstRead env calls key m code m₁)
    (hspares : ∀ r, m.holder r = none → m₁.holder r = some (.named key) →
      m'.holder r = some (.named key) ∧ ¬Sets (Piece.all code') r) :
    FirstRead env calls key m (code ++ code') m' := by
  obtain ⟨front, r, back, rfl, hfront, hfree, hheld, hback⟩ := h
  obtain ⟨hheld', hcode'⟩ := hspares r hfree hheld
  exact ⟨front, r, back ++ code', by simp, hfront, hfree, hheld', by simp [hback, hcode']⟩

theorem behind (h : FirstRead env calls key m₁ code' m') (hkept : Kept m m₁)
    (hcode : Formed env.toFunctionTable calls code) :
    FirstRead env calls key m (code ++ code') m' := by
  obtain ⟨front, r, back, rfl, hfront, hfree, hheld, hback⟩ := h
  refine ⟨code ++ front, r, back, by simp, hcode.append hfront, ?_, hheld, hback⟩
  cases hholder : m.holder r with
  | none => rfl
  | some holder =>
    rw [hkept hholder] at hfree
    cases hfree

theorem of_kept (h : FirstRead env calls key m₁ code m') (hkept : Kept m m₁) :
    FirstRead env calls key m code m' := h.behind hkept .nil

/-- The variable then has a register. -/
theorem exists_holder (h : FirstRead env calls key m code m') :
    ∃ r, m'.holder r = some (.named key) := by
  obtain ⟨front, r, back, -, -, -, hheld, -⟩ := h
  exact ⟨r, hheld⟩

theorem of_readVariable {r : Register} (h : readVariable env name m = .ok ((r, code), m'))
    (hnone : m.lookup (env.key name) = none) : FirstRead env calls (env.key name) m code m' := by
  obtain ⟨_, _, ⟨⟩, h⟩ := run_bind_eq_ok.1 h
  rw [hnone] at h
  obtain ⟨b, m₁, hb, ⟨⟩⟩ := run_bind_eq_ok.1 h
  rcases bind_cases hb with ⟨hholder, -⟩ | ⟨-, hfree, rfl⟩
  · obtain ⟨r, hr⟩ := exists_lookup_of_holder hholder
    rw [hnone] at hr
    cases hr
  · refine ⟨[], b.register, [], (append_nil _).symm, .nil, hfree, ?_, by simp [Piece.all]⟩
    rw [holder_noteInFrame, holder_take, if_pos rfl]

end FirstRead

/-- Loading gives the key a register if it has none. -/
def ReadsFirst (env : Environment) (calls : List String) (key : String) (ld : Load) : Prop :=
  ∀ ⦃dst m code m'⦄, ld dst m = .ok (code, m') → m.holder dst ≠ none → m.lookup key = none →
    FirstRead env calls key m code m'

/-- An operand loaded into a temporary reads the name first. -/
theorem ReadsFirst.viaTemporary {ld : Load} (h : ReadsFirst env calls key ld)
    (hf : Assembly.viaTemporary ld m = .ok (f, m')) (hnone : m.lookup key = none) :
    FirstRead env calls key m f.code m' := by
  obtain ⟨t, m₁, code, ht, hcode, rfl⟩ := viaTemporary_eq_ok hf
  have hborrows := Borrows.of_temp ht
  obtain ⟨-, rfl⟩ := temp_eq_ok ht
  refine (h hcode ?_ (by rw [hborrows.lookup, hnone])).of_kept fun {r holder} hr => ?_
  · rw [holder_take, if_pos rfl]
    nofun
  · exact hborrows.holder hr

theorem ReadsFirst.fetchRegister (h : ReadsFirst env calls key (load env e))
    (hread : key ∈ e.reads.map env.key)
    (hf : Assembly.fetchRegister env e (load env e) m = .ok (f, m')) (hnone : m.lookup key = none) :
    FirstRead env calls key m f.code m' := by
  rcases fetchRegister_eq_ok hf with ⟨name, r, code, rfl, hcode, rfl⟩ | ⟨-, hf⟩
  · obtain rfl : key = env.key name := by simpa [Operand.reads] using hread
    exact .of_readVariable hcode hnone
  · exact h.viaTemporary hf hnone

theorem ReadsFirst.fetch (h : ReadsFirst env calls key (load env e))
    (hread : key ∈ e.reads.map env.key) {f : Fetched Source}
    (hf : Assembly.fetch env e (load env e) m = .ok (f, m')) (hnone : m.lookup key = none) :
    FirstRead env calls key m f.code m' := by
  rcases fetch_eq_ok hf with ⟨v, hv, -⟩ | ⟨name, r, code, rfl, hcode, rfl⟩ | ⟨-, g, hg, rfl⟩
  · cases e with
    | number => simp [Operand.reads] at hread
    | _ => cases hv
  · obtain rfl : key = env.key name := by simpa [Operand.reads] using hread
    exact .of_readVariable hcode hnone
  · exact h.viaTemporary hg hnone

theorem target?_of_callPiece {piece : Piece}
    (h : callPiece env callee = .ok piece) : piece.instruction.target? = none := by
  unfold callPiece at h
  split at h
  · cases h
    rfl
  · split at h
    · cases h
    · cases h
      rfl

section Load

variable (hkey : IsVariable env.signatures key)

include hkey

/-- Of several arguments, the first that reads the name. -/
theorem readsFirst_loadTemporaries
    (hdeclared : ∀ c ∈ Operand.callsAll args, env.signatures.lookup c ≠ none)
    (hcalls : ∀ c ∈ Operand.callsAll args, c ∈ calls)
    (hargs : ∀ e ∈ args, key ∈ e.reads.map env.key → ReadsFirst env calls key (load env e))
    (hread : key ∈ (Operand.readsAll args).map env.key)
    (hfs : loadTemporaries (loads env args) m = .ok (fs, m')) (hnone : m.lookup key = none) :
    FirstRead env calls key m (fs.flatMap (·.code)) m' := by
  induction args generalizing m fs with
  | nil => simp [Operand.readsAll] at hread
  | cons e rest ih =>
    obtain ⟨f, m₁, hf, h⟩ := run_bind_eq_ok.1 hfs
    obtain ⟨gs, m₂, hgs, h⟩ := run_bind_eq_ok.1 h
    cases h
    obtain ⟨he, hrest⟩ := forall_mem_cons.1 hargs
    obtain ⟨hdeclared, hdeclareds⟩ := forall_mem_append.1 hdeclared
    rw [flatMap_cons]
    by_cases hfirst : key ∈ e.reads.map env.key
    · refine ((he hfirst).viaTemporary hf hnone).append fun r _ hr => ?_
      refine (Permit.makes_loadTemporaries hgs).spares ?_ not_mem_nil hr
      intro hassigned
      obtain ⟨e', -, hassigned⟩ := mem_flatMap.1 hassigned
      exact hkey.not_mem_assigns e' hassigned
    · have hmakes := (Permit.makes_viaTemporary hf).1
      have hnone₁ : m₁.lookup key = none :=
        hmakes.since.lookup_eq_none (mt (hkey.mem_mentions_iff hdeclared).1 hfirst) hnone
      rw [Operand.readsAll, map_append, mem_append] at hread
      obtain ⟨hcall, hcalls⟩ := forall_mem_append.1 hcalls
      exact (ih hdeclareds hcalls hrest (hread.resolve_left hfirst) hgs hnone₁).behind hmakes.kept
        (formed_viaTemporary env hcall m f m₁ hf)

/-- A call whose arguments read the name. -/
theorem readsFirst_callCode
    (hdeclared : ∀ c ∈ callee :: Operand.callsAll args, env.signatures.lookup c ≠ none)
    (hcalls : ∀ c ∈ Operand.callsAll args, c ∈ calls)
    (hargs : ∀ e ∈ args, key ∈ e.reads.map env.key → ReadsFirst env calls key (load env e))
    (hread : key ∈ (Operand.readsAll args).map env.key)
    (h : callCode env callee (loads env args) m = .ok (code, m')) (hnone : m.lookup key = none) :
    FirstRead env calls key m code m' := by
  obtain ⟨piece, hpiece, ⟨hundeclared, -⟩ | ⟨params, targets, m₁, passing, hparams, hlength,
    htargets, hpassing, rfl⟩⟩ := callCode_eq_ok h
  · exact (hdeclared callee mem_cons_self hundeclared).elim
  have hcall : piece.instruction.target? = none := target?_of_callPiece hpiece
  obtain ⟨hsince, hheld⟩ := Permit.since_parameterRegisters htargets
  have hnone₁ : m₁.lookup key = none := by
    refine hsince.lookup_eq_none (fun hmem => ?_) hnone
    refine hkey.not_mem_parameterKeys callee ?_
    rwa [parameterKeys, hparams]
  suffices hfirst : FirstRead env calls key m₁ passing m' from
    (hfirst.of_kept hsince.holder).append fun r _ hr => ⟨hr, by simp [Piece.all, hcall]⟩
  by_cases hone : (loads env args).length = 1
  · -- one argument goes to its parameter at once
    rw [length_loads] at hone
    obtain ⟨e, rfl⟩ := length_eq_one_iff.1 hone
    obtain ⟨param, rfl⟩ := length_eq_one_iff.1 hlength
    obtain ⟨b, _, -, hrest⟩ := run_bind_eq_ok.1 htargets
    obtain ⟨_, _, ⟨⟩, ⟨⟩⟩ := run_bind_eq_ok.1 hrest
    exact hargs e (mem_singleton_self e) (by simpa [Operand.readsAll] using hread) hpassing
      (hheld _ (mem_singleton_self _)) hnone₁
  · obtain ⟨fs, m₂, hfs, rfl, hnames⟩ := loadArguments_eq_ok hone hpassing
    refine (readsFirst_loadTemporaries hkey (forall_mem_cons.1 hdeclared).2 hcalls hargs hread
      hfs hnone₁).append fun r hfree hr => ⟨hnames hr, ?_⟩
    rw [Piece.all_plain]
    rintro ⟨i, hi, hset⟩
    rw [← map_uncurry_zip_eq_zipWith] at hi
    obtain ⟨⟨target, f⟩, hzip, rfl⟩ := mem_map.1 hi
    obtain rfl : target = r := by simpa using hset
    exact hheld target (of_mem_zip hzip).1 hfree

/-- The operand that reads the variable first gives it its register. -/
theorem FirstRead.of_sides {l r : Operand} {m₂ : RegisterMap} {left right tail : List Piece}
    (hdeclared : ∀ c ∈ l.calls, env.signatures.lookup c ≠ none)
    (hread : key ∈ (l.reads ++ r.reads).map env.key)
    (hl : key ∈ l.reads.map env.key → FirstRead env calls key m left m₁)
    (hr : key ∈ r.reads.map env.key → m₁.lookup key = none → FirstRead env calls key m₁ right m₂)
    (hleft : (Permit.mk (l.mentions env.signatures env.scope) (l.assigns env.signatures) []
      m).Makes m₁ left)
    (hright : (Permit.mk (r.mentions env.signatures env.scope) (r.assigns env.signatures) []
      m₁).Makes m₂ right) (hformed : Formed env.toFunctionTable calls left)
    (htail : ∀ {r}, m.holder r = none → m₂.holder r = some (.named key) →
      m'.holder r = some (.named key) ∧ ¬Sets (Piece.all tail) r) (hnone : m.lookup key = none) :
    FirstRead env calls key m (left ++ (right ++ tail)) m' := by
  rw [map_append, mem_append] at hread
  by_cases hfirst : key ∈ l.reads.map env.key
  · refine (hl hfirst).append fun r' hfree hr' => ?_
    obtain ⟨hr₂, hset⟩ := hright.spares (hkey.not_mem_assigns r) not_mem_nil hr'
    obtain ⟨hr₃, hset'⟩ := htail hfree hr₂
    refine ⟨hr₃, ?_⟩
    rw [Piece.all_append, sets_append]
    exact not_or.2 ⟨hset, hset'⟩
  · have hnone₁ : m₁.lookup key = none :=
      hleft.since.lookup_eq_none (mt (hkey.mem_mentions_iff hdeclared).1 hfirst) hnone
    refine ((hr (hread.resolve_left hfirst) hnone₁).append fun r' hfree hr' =>
      htail ?_ hr').behind hleft.kept hformed
    exact hleft.since.start_eq_none hfree

end Load

mutual

/-- **The first read of a variable in an operand.** -/
theorem readsFirst_load (hkey : IsVariable env.signatures key) (e : Operand)
    (hdeclared : ∀ c ∈ e.calls, env.signatures.lookup c ≠ none) (hcalls : ∀ c ∈ e.calls, c ∈ calls)
    (hread : key ∈ e.reads.map env.key) : ReadsFirst env calls key (load env e) := by
  intro dst m code m' h hdst hnone
  -- a load goes to a register in use, so what follows a first read spares a register still free
  have hne {r : Register} (hr : m.holder r = none) : dst ≠ r := by
    rintro rfl
    exact hdst hr
  match e with
  | .number _ | .text _ => simp [Operand.reads] at hread
  | .var name =>
    obtain rfl : key = env.key name := by simpa [Operand.reads] using hread
    obtain ⟨⟨r, front⟩, m₁, hfront, ⟨⟩⟩ := run_bind_eq_ok.1 h
    refine (FirstRead.of_readVariable hfront hnone).append fun r' hfree hr' => ⟨hr', ?_⟩
    simpa using hne hfree
  | .binary op l r =>
    obtain ⟨a, m₁, b, m₂, is, m₃, ha, hb, his, rfl, hnames⟩ := load_binary_eq_ok h
    obtain ⟨hdeclaredl, hdeclaredr⟩ := forall_mem_append.1 hdeclared
    obtain ⟨hcallsl, hcallsr⟩ := forall_mem_append.1 hcalls
    have hl := readsFirst_load hkey l hdeclaredl hcallsl
    have hr := readsFirst_load hkey r hdeclaredr hcallsr
    have hformed := formed_fetch env hcallsl m a m₁ ha
    refine FirstRead.of_sides hkey hdeclaredl hread (fun hread => (hl hread).fetch hread ha hnone)
      (fun hread => (hr hread).fetch hread hb) (Permit.makes_fetch ha) (Permit.makes_fetch hb)
      hformed (fun hfree hr' => ?_) hnone
    obtain ⟨hr₃, hset⟩ := (Permit.makes_operate his).spares not_mem_nil
      (by simpa using (hne hfree).symm) hr'
    exact ⟨hnames hr₃, hset⟩
  | .unary .neg e =>
    obtain ⟨a, m₁, ha, rfl, hnames⟩ := load_neg_eq_ok h
    refine ((readsFirst_load hkey e hdeclared hcalls hread).fetch hread ha hnone).append
      fun r hfree hr => ⟨hnames hr, ?_⟩
    simpa using hne hfree
  | .unary .not e =>
    obtain ⟨a, m₁, ha, rfl, hnames⟩ := load_not_eq_ok h
    refine ((readsFirst_load hkey e hdeclared hcalls hread).viaTemporary ha hnone).append
      fun r hfree hr => ⟨hnames hr, fun hset => ?_⟩
    rw [Piece.all_plain] at hset
    exact hne hfree (eq_of_sets_choose hset)
  | .logical op l r =>
    obtain ⟨a, m₁, b, m₂, ha, hb, rfl, hnames⟩ := load_logical_eq_ok h
    obtain ⟨hdeclaredl, hdeclaredr⟩ := forall_mem_append.1 hdeclared
    obtain ⟨hcallsl, hcallsr⟩ := forall_mem_append.1 hcalls
    have hl := readsFirst_load hkey l hdeclaredl hcallsl
    have hr := readsFirst_load hkey r hdeclaredr hcallsr
    have hformed := formed_viaTemporary env hcallsl m a m₁ ha
    refine FirstRead.of_sides hkey hdeclaredl hread (fun hread => (hl hread).viaTemporary ha hnone)
      (fun hread => (hr hread).viaTemporary hb) (Permit.makes_viaTemporary ha).1
      (Permit.makes_viaTemporary hb).1 hformed (fun hfree hr' => ⟨hnames hr', fun hset => ?_⟩) hnone
    rw [Piece.all_plain] at hset
    exact hne hfree (eq_of_sets_combine hset)
  | .call callee args =>
    obtain ⟨calling, m₁, result, hcalling, rfl, hnames⟩ := load_call_eq_ok h
    have hargs := (forall_mem_cons.1 hdeclared).2
    have hcalls := (forall_mem_cons.1 hcalls).2
    refine (readsFirst_callCode hkey hdeclared hcalls (readsFirst_loads hkey args hargs hcalls)
      hread hcalling hnone).append fun r hfree hr => ⟨hnames hr, ?_⟩
    simpa using hne hfree

theorem readsFirst_loads (hkey : IsVariable env.signatures key) (args : List Operand)
    (hdeclared : ∀ c ∈ Operand.callsAll args, env.signatures.lookup c ≠ none)
    (hcalls : ∀ c ∈ Operand.callsAll args, c ∈ calls) :
    ∀ e ∈ args, key ∈ e.reads.map env.key → ReadsFirst env calls key (load env e) := by
  match args with
  | [] => simp
  | arg :: rest =>
    obtain ⟨harg, hrest⟩ := forall_mem_append.1 hdeclared
    obtain ⟨harg', hrest'⟩ := forall_mem_append.1 hcalls
    exact forall_mem_cons.2 ⟨readsFirst_load hkey arg harg harg',
      readsFirst_loads hkey rest hrest hrest'⟩

end

end Assembly

/-! ## Declared functions -/

theorem Assembly.Makes.declared {pieces : List Piece} {sites : List CallSite}
    (h : Makes table pieces sites) (hpieces : ∀ piece ∈ pieces, piece.fixup = none) :
    ∀ site ∈ sites, table.signatures.lookup site.callee ≠ none := by
  induction h with
  | nil => simp
  | other _ _ ih => exact ih (forall_mem_cons.1 hpieces).2
  | call hreaches _ ih =>
    obtain ⟨⟨params, hparams, -⟩, -⟩ := hreaches
    exact forall_mem_cons.2 ⟨by simp [hparams], ih (forall_mem_cons.1 hpieces).2⟩
  | waiting => cases (forall_mem_cons.1 hpieces).1

/-- The stretch calls declared functions only. -/
def Site.Declared (table : FunctionTable) (σ : Site) : Prop :=
  ∀ c ∈ instrCalls σ.stretch.instr, table.signatures.lookup c ≠ none

/-- A stretch without a waiting call calls declared functions. -/
theorem Point.Begins.declared (h : P.Begins table σ) (hdeclares : table.Declares)
    (hcode : ∀ piece ∈ σ.code, piece.fixup = none) : σ.Declared table := by
  suffices hmakes : Makes table σ.code σ.stretch.instr.callSites by
    intro c hc
    obtain ⟨site, hsite, rfl⟩ := Linear.Instr.mem_calls_iff_callSites.1 hc
    exact hmakes.declared hcode site hsite
  have hcond (cond : Operand) : (Instr.ifBegin cond).callSites = cond.callSites ∧
      (Instr.whileBegin cond).callSites = cond.callSites := by
    simp [Instr.callSites, Instr.operands]
  cases h with
  | @plain i hi _ _ _ _ _ hpieces => exact makes_draftPlain hdeclares hi _ _ _ hpieces
  | @ifTest cond _ _ _ _ _ _ _ htest | @choiceTest cond _ _ _ _ _ _ _ _ htest =>
    exact (hcond cond).1 ▸ makes_draftTest hdeclares cond _ _ _ htest
  | @loopTest cond _ _ _ _ _ _ _ htest =>
    exact (hcond cond).2 ▸ (makes_draftLoopTest hdeclares cond _ _ _ htest).1
  | @again cond _ _ _ _ _ _ _ _ _ _ _ htest _ hagain =>
    exact (hcond cond).2 ▸ makes_draftRepeat hdeclares
      (makes_draftLoopTest hdeclares cond _ _ _ htest).2 _ _ _ hagain

/-- Nothing waits in an assembled program. -/
theorem Tied.declared {code : List Instr} {a : Assembled code image}
    {l : Linked image} {turns : List Turn} (h : Tied a l turns) {p : Part} (hσ : a.HasSite p σ) :
    σ.Declared a.table := by
  obtain ⟨P, hP, hσ⟩ := hσ
  obtain ⟨who, body, ending, d, b, -, -, hd, hshape, -⟩ := h.exists_draft hP
  obtain ⟨t, hcode, -, -⟩ := hσ.exists_segment hd hshape
  obtain ⟨Q, -, hbegins⟩ := hσ
  exact hbegins.declared a.declares (by simp [hcode, plain])

/-- The other keys have registers before anything is lowered. -/
theorem Assembled.isVariable {code : List Instr} (a : Assembled code image)
    (hnone : a.initial.registers.lookup key = none) : IsVariable a.table.signatures key := by
  obtain ⟨hsignatures, -⟩ := (gives_signatures _).eq_ok a.signatures_eq
  have hbound : ∀ y ∈ _, ∃ r, a.initial.registers.holder r = some (.named y) :=
    (bindsAll_bindParameters _ _ _ a.parameters_eq).2.2.2.2
  have hunbound (r : Register) : a.initial.registers.holder r ≠ some (.named key) := by
    intro hr
    obtain ⟨r', hr'⟩ := exists_lookup_of_holder hr
    rw [hnone] at hr'
    cases hr'
  refine ⟨?_, fun callee hmem => ?_⟩
  · rintro rfl
    cases hroutines : a.tree.routines with
    | nil => rw [hsignatures, hroutines, map_nil]
    | cons r rest =>
      obtain ⟨r', hr'⟩ := hbound returnName
        (mem_append_right _ (by simp [returnNames, hroutines]))
      exact (hunbound r' hr').elim
  · rw [parameterKeys] at hmem
    cases hlookup : a.table.signatures.lookup callee with
    | none => simp [hlookup] at hmem
    | some params =>
      rw [hlookup, Option.getD_some] at hmem
      obtain ⟨front, back, hentries, -⟩ := lookup_eq_some_iff.1 hlookup
      rw [hsignatures] at hentries
      have hentry : (callee, params) ∈ a.tree.routines.map fun r => (r.name, r.params) := by
        simp [hentries]
      obtain ⟨r, hr, heq⟩ := mem_map.1 hentry
      cases heq
      obtain ⟨r', hr'⟩ := hbound key (mem_append_left _ (mem_flatMap.2
        ⟨r.function, mem_map_of_mem hr, hmem⟩))
      exact hunbound r' hr'

/-! ## Stretches -/

namespace Linear.Instr

/-- The keys of the variables that an instruction reads. -/
def readKeys (scope : Option Scope) (i : Instr) : List String :=
  i.operands.flatMap fun e => e.reads.map (keyIn (i.scopeAfter scope))

/-- A variable is mentioned by reading it or setting it. -/
theorem mem_mentions_iff {i : Instr} (hkey : IsVariable signatures key)
    (hdeclared : ∀ c ∈ instrCalls i, signatures.lookup c ≠ none) :
    key ∈ i.mentions signatures scope ↔
      key ∈ i.readKeys scope ∨ key ∈ i.targets signatures scope := by
  simp only [mentions, readKeys, mem_append, mem_flatMap]
  refine or_congr_left (exists_congr fun e => and_congr_right fun he => ?_)
  exact hkey.mem_mentions_iff fun c hc =>
    hdeclared c (mem_calls_of_mem_operands (i := i) (fun _ => id) he c hc)

end Linear.Instr

/-- The keys of the variables that a stretch reads. -/
def Site.reads (σ : Site) : List String := σ.stretch.instr.readKeys σ.before.scope

namespace Assembly

variable {b b' : Bindings} {code : List Piece}

section FirstLoad

variable (he : ReadsFirst ⟨table, b.scope⟩ calls key (load ⟨table, b.scope⟩ e))

include he

theorem ReadsFirst.draftAssign (hne : key ≠ keyIn b.scope name)
    (h : draftAssign table name e b = .ok (code, b')) (hnone : b.registers.lookup key = none) :
    FirstRead ⟨table, b'.scope⟩ calls key b.registers code b'.registers := by
  obtain ⟨binding, m, m', hbind, hload, rfl⟩ := draftAssign_eq_ok h
  obtain ⟨hsince, -, hheld, -⟩ := (Permit.since_start [keyIn b.scope name] [] [] b.registers).bind
    (mem_singleton_self _) hbind
  have hnone' : m.lookup key = none := hsince.lookup_eq_none (by simpa using hne) hnone
  exact (he hload (by simp [hheld]) hnone').of_kept hsince.holder

theorem ReadsFirst.draftTest {test : Register} (hread : key ∈ e.reads.map (keyIn b.scope))
    (h : draftTest table e b = .ok ((code, test), b')) (hnone : b.registers.lookup key = none) :
    FirstRead ⟨table, b'.scope⟩ calls key b.registers code b'.registers := by
  obtain ⟨f, m, hf, rfl, -, rfl⟩ := draftTest_eq_ok h
  have hfirst := he.fetchRegister hread hf hnone
  rw [← append_nil f.code]
  exact hfirst.append fun r _ hr => ⟨namesKept_releaseAll _ _ hr, by simp [Piece.all]⟩

theorem ReadsFirst.loadsTemporary (h : LoadsTemporary table e b b' code)
    (hnone : b.registers.lookup key = none) :
    FirstRead ⟨table, b'.scope⟩ calls key b.registers code b'.registers := by
  obtain ⟨t, m, m₁, m', ht, hload, rfl, hnames⟩ := h
  have hfirst := he.viaTemporary (run_bind_eq_ok.2 ⟨t, m, ht, run_bind_eq_ok.2 ⟨_, _, hload, rfl⟩⟩)
    hnone
  rw [← append_nil code]
  exact hfirst.append fun r _ hr => ⟨hnames hr, by simp [Piece.all]⟩

theorem ReadsFirst.draftLoopTest {test : LoopTest} (hread : key ∈ e.reads.map (keyIn b.scope))
    (h : draftLoopTest table e b = .ok ((code, test), b')) (hnone : b.registers.lookup key = none) :
    FirstRead ⟨table, b'.scope⟩ calls key b.registers code b'.registers := by
  by_cases hvar : ∃ name, e = .var name
  · obtain ⟨name, rfl⟩ := hvar
    obtain rfl : key = keyIn b.scope name := by simpa [Operand.reads] using hread
    obtain ⟨_, _, ⟨⟩, h⟩ := run_bind_eq_ok.1 h
    obtain ⟨⟨r, pieces⟩, m, hm, ⟨⟩⟩ := request_bind_eq_ok h
    exact .of_readVariable hm hnone
  · exact he.loadsTemporary (loadsTemporary_of_draftLoopTest (fun name heq => hvar ⟨name, heq⟩) h)
      hnone

end FirstLoad

theorem firstRead_draftCall (hkey : IsVariable table.signatures key)
    (hdeclared : ∀ c ∈ callee :: Operand.callsAll args, table.signatures.lookup c ≠ none)
    (hcalls : ∀ c ∈ Operand.callsAll args, c ∈ calls)
    (hread : key ∈ (Operand.readsAll args).map (keyIn b.scope))
    (h : (do let env ← environmentOf table; request (callCode env callee (loads env args)) :
      Drafting (List Piece)) b = .ok (code, b')) (hnone : b.registers.lookup key = none) :
    FirstRead ⟨table, b'.scope⟩ calls key b.registers code b'.registers := by
  obtain ⟨m', hm', rfl⟩ := environment_request_eq_ok h
  have hargs : ∀ e ∈ args, key ∈ e.reads.map (Environment.key ⟨table, b.scope⟩) →
      ReadsFirst ⟨table, b.scope⟩ calls key (load ⟨table, b.scope⟩ e) :=
    readsFirst_loads hkey args (forall_mem_cons.1 hdeclared).2 hcalls
  exact readsFirst_callCode hkey hdeclared hcalls hargs hread hm' hnone

end Assembly

/-- **The first read of a variable in a stretch.** -/
theorem Point.Begins.firstRead (h : P.Begins table σ)
    (hagain : ∀ test cond, σ.stretch ≠ .again test cond)
    (hkey : IsVariable table.signatures key) (hdeclared : σ.Declared table) (hread : key ∈ σ.reads)
    (hassigns : key ∉ σ.assigns table.signatures) (hnone : σ.before.registers.lookup key = none) :
    FirstRead (σ.env table) (instrCalls σ.stretch.instr) key σ.before.registers σ.code
      σ.after.registers := by
  have htargets (hmem : key ∈ σ.stretch.instr.targets table.signatures σ.before.scope) : False :=
    hassigns (mem_append_right _ hmem)
  obtain ⟨e, he, hread⟩ := mem_flatMap.1 hread
  have hcalls := mem_calls_of_mem_operands (i := σ.stretch.instr) (fun _ => id) he
  -- whichever operand reads the name, its own load already does so first
  have hload : ReadsFirst ⟨table, σ.stretch.instr.scopeAfter σ.before.scope⟩
      (instrCalls σ.stretch.instr) key
      (load ⟨table, σ.stretch.instr.scopeAfter σ.before.scope⟩ e) :=
    readsFirst_load hkey e (fun c hc => hdeclared c (hcalls c hc)) hcalls hread
  cases h with
  | @plain i hi rest b b₁ offset pieces hpieces =>
    cases i with
    | declare name value =>
      obtain rfl := mem_singleton.1 he
      obtain ⟨_, _, ⟨⟩, hassign⟩ := run_bind_eq_ok.1 hpieces
      exact hload.draftAssign (b := { b with scope := b.scope.map _ })
        (fun heq => htargets (heq ▸ mem_singleton_self _)) hassign hnone
    | assign name value =>
      obtain rfl := mem_singleton.1 he
      exact hload.draftAssign (fun heq => htargets (heq ▸ mem_singleton_self _)) hpieces hnone
    | print value =>
      obtain rfl := mem_singleton.1 he
      obtain ⟨⟨inner, r⟩, b₂, htest, ⟨⟩⟩ := run_bind_eq_ok.1 hpieces
      refine (hload.draftTest hread htest hnone).append fun r' _ hr' => ⟨hr', ?_⟩
      simp [Piece.all, Sets, Instruction.target?]
    | call callee args =>
      have hmem : ∀ c ∈ callee :: Operand.callsAll args, c ∈ instrCalls (.call callee args) := by
        simp [instrCalls, Instr.operands, Operand.callsAll_eq_flatMap]
      exact firstRead_draftCall hkey (fun c hc => hdeclared c (hmem c hc))
        (fun c hc => hmem c (mem_cons_of_mem _ hc))
        (map_subset _ (Operand.subset_all_of_mem he).1 hread) hpieces hnone
    | expr value =>
      obtain rfl := mem_singleton.1 he
      by_cases hcall : ∃ callee args, e = .call callee args
      · obtain ⟨callee, args, rfl⟩ := hcall
        exact firstRead_draftCall hkey (fun c hc => hdeclared c (hcalls c hc))
          (fun c hc => hcalls c (mem_cons_of_mem _ hc)) hread hpieces hnone
      · have hcall : ∀ callee args, e ≠ .call callee args := fun c as heq => hcall ⟨c, as, heq⟩
        exact hload.loadsTemporary (loadsTemporary_of_draftExpr hcall hpieces) hnone
    | ret value =>
      obtain rfl := mem_singleton.1 he
      obtain ⟨binding, m, inner, m', hm, hm', rfl, rfl⟩ := draftRet_eq_ok hpieces
      obtain ⟨hsince, hheld⟩ := Permit.since_bindGlobal hm
      have hnone' : m.lookup key = none :=
        hsince.lookup_eq_none (fun hmem => htargets hmem) hnone
      refine ((hload hm' (by simp [hheld]) hnone').of_kept hsince.holder).append
        fun r _ hr => ⟨hr, ?_⟩
      simp [Sets, Instruction.target?]
    | ifBegin cond | whileBegin cond =>
      obtain ⟨hopens, -⟩ := hi
      cases hopens
    | _ => cases he
  | @ifTest cond body rest b b₁ offset pieces test htest
  | @choiceTest cond body other rest b b₁ offset pieces test htest =>
    obtain rfl := mem_singleton.1 he
    exact hload.draftTest hread htest hnone
  | @loopTest cond body rest b b₁ offset pieces test htest =>
    obtain rfl := mem_singleton.1 he
    exact hload.draftLoopTest hread htest hnone
  | again => exact (hagain _ _ rfl).elim

end ImpMachine
