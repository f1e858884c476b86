import ImpMachine.Proofs.OperandParts

/-!
# The order in which the sides of an operator are evaluated

The code of an operator is that of its left side, that of its right side and that of the operator
itself (`HasSides.code_eq`). What the left side comes to is an immediate, or in a temporary that the
right side leaves alone, or it is a variable, and then the operator reads the variable's register
only behind the right side. So the left side keeps its value while the right side is evaluated, but
for a variable that a call in the right side sets, and for a function's temporary whose register a
shared name holds as well (`assemble_evaluates_left_first`). `overtaken` shows the first of these.
-/

open List

namespace ImpMachine

open Assembly Linear RegisterMap

variable {r : Register} {env : Environment} {m' : RegisterMap} {table : FunctionTable} {P : Point}
variable {σ : Site} {s : Shape}

/-! ## The sides of an operator -/

namespace Assembly

/-- The two sides of an operator in the code of an operand. -/
structure Sides where
  rhs : Operand
  /-- The code of the left side. -/
  left : List Piece
  /-- Where the value of the left side then is. -/
  place : Source
  /-- The registers when the right side is lowered. -/
  between : RegisterMap
  /-- The code of the right side. -/
  right : List Piece
  /-- The code of the operator itself. -/
  operation : List Instruction

variable {S : Sides}

/-- The sides of an operator that is loaded into `dst` from the map `m` on. -/
inductive HasSides (env : Environment) : (e : Operand) → (dst : Register) → (m : RegisterMap) →
    Sides → Prop where
  | binary {op : BinaryOp} {l r : Operand} {dst : Register} {m m₁ m₂ m₃ : RegisterMap}
      {a b : Fetched Source} {is : List Instruction} : fetch env l (load env l) m = .ok (a, m₁) →
      fetch env r (load env r) m₁ = .ok (b, m₂) → operate op dst a.place b.place m₂ = .ok (is, m₃) →
      HasSides env (.binary op l r) dst m ⟨r, a.code, a.place, m₁, b.code, is⟩
  | logical {op : LogicalOp} {l r : Operand} {dst : Register} {m m₁ m₂ : RegisterMap}
      {a b : Fetched Register} : viaTemporary (load env l) m = .ok (a, m₁) →
      viaTemporary (load env r) m₁ = .ok (b, m₂) →
      HasSides env (.logical op l r) dst m
        ⟨r, a.code, regSource a.place, m₁, b.code, combine op dst a.place b.place⟩

theorem holder_of_readVariable {name : String} {code : List Piece}
    {m : RegisterMap} (h : readVariable env name m = .ok ((r, code), m')) :
    m'.holder r = some (.named (env.key name)) := by
  obtain ⟨_, _, ⟨⟩, h⟩ := run_bind_eq_ok.1 h
  cases hlookup : m.lookup (env.key name) with
  | some r' =>
    rw [hlookup] at h
    cases h
    exact holder_of_lookup hlookup
  | none =>
    rw [hlookup] at h
    obtain ⟨b, m₁, hb, ⟨⟩⟩ := run_bind_eq_ok.1 h
    rcases bind_cases hb with ⟨hholder, rfl⟩ | ⟨-, -, rfl⟩
    · exact hholder
    · rw [holder_noteInFrame, holder_take, if_pos rfl]

/-- The code of an operator begins with a plain instruction. -/
theorem exists_plain_operate {op : BinaryOp} {dst : Register} {a b : Source} :
    Yields (operate op dst a b) fun is => ∃ i rest, is = i :: rest ∧ i.IsPlain := by
  have hless {dst : Register} {a b : Source} :
      Yields (compareLess dst a b) fun is => ∃ i rest, is = i :: rest ∧ i.IsPlain :=
    Yields.bind_any fun e => Yields.bind_any fun t => Yields.bind_any fun _ =>
      Yields.pure ⟨_, _, rfl, trivial⟩
  have hnot {a b : Source} :
      Yields (compareNot dst a b) fun is => ∃ i rest, is = i :: rest ∧ i.IsPlain := by
    refine Yields.bind_any fun q => hless.bind fun code hcode => Yields.bind_any fun _ =>
      Yields.pure ?_
    obtain ⟨i, rest, rfl, hi⟩ := hcode
    exact ⟨i, _, rfl, hi⟩
  have hequal {same differ : UInt8} :
      Yields (compareEqual dst a b same differ) fun is => ∃ i rest, is = i :: rest ∧ i.IsPlain :=
    Yields.bind_any fun d => Yields.bind_any fun _ => Yields.pure ⟨_, _, rfl, trivial⟩
  cases op with
  | add | sub | mul | div => exact Yields.pure ⟨_, _, rfl, trivial⟩
  | mod => exact Yields.bind_any fun q => Yields.bind_any fun _ => Yields.pure ⟨_, _, rfl, trivial⟩
  | lt | gt => exact hless
  | ltEq | gtEq => exact hnot
  | eq | notEq => exact hequal

namespace HasSides

variable {e : Operand} {dst : Register} {m : RegisterMap} {code : List Piece}

theorem code_eq (h : HasSides env e dst m S) (hcode : load env e dst m = .ok (code, m')) :
    code = S.left ++ (S.right ++ plain S.operation) := by
  cases h with
  | binary ha hb his =>
    obtain ⟨a, m₁, b, m₂, is, m₃, ha', hb', his', rfl, -⟩ := load_binary_eq_ok hcode
    cases ha.symm.trans ha'
    cases hb.symm.trans hb'
    cases his.symm.trans his'
    rfl
  | logical ha hb =>
    obtain ⟨a, m₁, b, m₂, ha', hb', rfl, -⟩ := load_logical_eq_ok hcode
    cases ha.symm.trans ha'
    cases hb.symm.trans hb'
    rfl

theorem exists_plain (h : HasSides env e dst m S) : ∃ i is, S.operation = i :: is ∧ i.IsPlain := by
  cases h with
  | binary _ _ his => exact exists_plain_operate _ _ _ his
  | @logical op => cases op <;> exact ⟨_, _, rfl, trivial⟩

theorem formed (h : HasSides env e dst m S) {calls : List String}
    (hcalls : ∀ c ∈ e.calls, c ∈ calls) :
    Formed env.toFunctionTable calls S.left ∧ Formed env.toFunctionTable S.rhs.calls S.right := by
  cases h with
  | binary ha hb =>
    exact ⟨formed_fetch env (forall_mem_append.1 hcalls).1 _ _ _ ha,
      formed_fetch env (fun _ => id) _ _ _ hb⟩
  | logical ha hb =>
    exact ⟨formed_viaTemporary env (forall_mem_append.1 hcalls).1 _ _ _ ha,
      formed_viaTemporary env (fun _ => id) _ _ _ hb⟩

/-- The code of the right side gives up nothing that is held when it begins. -/
theorem maySet_right (h : HasSides env e dst m S) (hr : Sets (Piece.all S.right) r) :
    S.between.holder r = none ∨
      ∃ x ∈ S.rhs.assigns env.signatures, S.between.holder r = some (.named x) := by
  have hset {p : Permit} (h : p.MaySet r) (hlent : p.lent = []) :
      p.start.holder r = none ∨ ∃ x ∈ p.assigned, p.start.holder r = some (.named x) :=
    h.imp_right fun h => h.resolve_right (by simp [hlent])
  cases h with
  | binary _ hb => exact hset ((Permit.makes_fetch hb).sets hr) rfl
  | logical _ hb => exact hset ((Permit.makes_viaTemporary hb).1.sets hr) rfl

/-- The left value is an immediate, a variable's, or in a temporary that was free. -/
theorem place_cases (h : HasSides env e dst m S) :
    (∃ v, S.place = .imm v) ∨
      (∃ op name r, e = .binary op (.var name) S.rhs ∧ S.place = regSource r ∧
        S.between.holder r = some (.named (env.key name))) ∨
      ∃ t, S.place = regSource t ∧ m.holder t = none ∧ S.between.holder t = some .temporary ∧
        Sets (Piece.all S.left) t := by
  have htemporary {l : Operand} {g : Fetched Register} {m₁ : RegisterMap}
      (hg : viaTemporary (load env l) m = .ok (g, m₁)) :
      m.holder g.place = none ∧ m₁.holder g.place = some .temporary ∧
        Sets (Piece.all g.code) g.place := by
    obtain ⟨-, hfree, hheld⟩ := Permit.makes_viaTemporary hg
    obtain ⟨t, m₂, code, -, hload, rfl⟩ := viaTemporary_eq_ok hg
    exact ⟨hfree, hheld, sets_load hload⟩
  cases h with
  | @binary op _ _ _ _ _ _ _ _ _ _ ha =>
    rcases fetch_eq_ok ha with ⟨v, -, rfl, rfl⟩ | ⟨name, r, code, rfl, hread, rfl⟩ |
      ⟨-, g, hg, rfl⟩
    · exact .inl ⟨v, rfl⟩
    · exact .inr (.inl ⟨op, name, r, rfl, rfl, holder_of_readVariable hread⟩)
    · exact .inr (.inr ⟨g.place, rfl, htemporary hg⟩)
  | logical ha => exact .inr (.inr ⟨_, rfl, htemporary ha⟩)

end HasSides

end Assembly

/-! ## Every operator -/

namespace Operand

mutual

/-- The operators with two sides in an operand, the operand itself first. -/
def operators : Operand → List Operand
  | .number _ | .text _ | .var _ => []
  | .binary op l r => .binary op l r :: (l.operators ++ r.operators)
  | .unary _ e => e.operators
  | .logical op l r => .logical op l r :: (l.operators ++ r.operators)
  | .call _ args => operatorsAll args

/-- The operators in several operands. -/
def operatorsAll : List Operand → List Operand
  | [] => []
  | e :: rest => e.operators ++ operatorsAll rest

end

theorem isLoaded_of_mem_operators {e e' : Operand} (h : e' ∈ e.operators) : e.IsLoaded := by
  cases e with
  | number | text | var => simp [operators] at h
  | _ => exact ⟨rfl, fun _ => nofun⟩

end Operand

namespace Assembly

variable {callee : String} {args : List Operand} {m : RegisterMap} {code : List Piece}

/-- Every argument of a declared function is loaded. -/
theorem exists_callPart (hdeclares : env.toFunctionTable.Declares)
    (h : callCode env callee (loads env args) m = .ok (code, m'))
    (hcode : ∀ piece ∈ code, piece.fixup = none) :
    ∀ arg ∈ args, ∃ front dst m₁, CallPart env callee args m front arg dst m₁ := by
  intro arg harg
  obtain ⟨piece, hpiece, ⟨hnone, rfl⟩ | ⟨params, targets, m₁, passing, hparams, hlength, htargets,
    hpassing, rfl⟩⟩ := callCode_eq_ok h
  · -- a call of no declared function waits
    rw [callPiece, hdeclares callee hnone] at hpiece
    cases hpiece
    cases hcode _ (mem_singleton_self _)
  · obtain ⟨before, after, rfl⟩ := append_of_mem harg
    rw [loads_append] at hlength hpassing
    by_cases hmore : before ++ after = []
    · obtain ⟨rfl, rfl⟩ := append_eq_nil_iff.1 hmore
      obtain ⟨param, rfl⟩ := length_eq_one_iff.1 hlength
      obtain ⟨b, m₂, hb, hrest⟩ := run_bind_eq_ok.1 htargets
      obtain ⟨_, _, ⟨⟩, ⟨⟩⟩ := run_bind_eq_ok.1 hrest
      exact ⟨_, _, _, .single hparams htargets⟩
    · obtain ⟨fs, m₂, hfs, -⟩ := loadArguments_eq_ok (length_loads_ne_one hmore) hpassing
      obtain ⟨gs, m₃, g, m₄, hs, hgs, hg, -, -⟩ := loadTemporaries_append_eq_ok hfs
      obtain ⟨t, m₅, inner, ht, -, -⟩ := viaTemporary_eq_ok hg
      exact ⟨_, _, _, .several hparams hmore htargets hgs ht⟩

end Assembly

namespace Site

/-- The code of the stretch evaluates the operator, behind the code `front`. -/
def HasOperator (table : FunctionTable) (σ : Site) (front : List Piece) (e : Operand) (S : Sides) :
    Prop :=
  ∃ dst m, σ.Loads table front e dst m ∧ HasSides (σ.env table) e dst m S

mutual

/-- Every operator in an operand is evaluated where the operand is. -/
theorem Loads.exists_operator (hdeclares : table.Declares)
    (hσ : σ.stretch.draft table σ.before = .ok (σ.code, σ.after))
    (hcode : ∀ piece ∈ σ.code, piece.fixup = none) {front : List Piece} {dst : Register}
    {m : RegisterMap} (e : Operand) (h : σ.Loads table front e dst m) :
    ∀ e' ∈ e.operators, ∃ front S, σ.HasOperator table front e' S := by
  intro e' he'
  obtain ⟨inner, m', back, hload, heq⟩ := h.code_eq hσ
  -- an operator below the root is in an operand that is loaded, where the recursion finds it
  match e with
  | .number _ | .text _ | .var _ => simp [Operand.operators] at he'
  | .binary op l r =>
    obtain ⟨a, m₁, b, m₂, is, m₃, ha, hb, his, -⟩ := load_binary_eq_ok hload
    rcases mem_cons.1 he' with rfl | he'
    · exact ⟨_, _, dst, m, h, .binary ha hb his⟩
    rcases mem_append.1 he' with he' | he'
    · have hl := Operand.isLoaded_of_mem_operators he'
      obtain ⟨t, _, _, ht, -, -⟩ := fetch_eq_ok_of_isLoaded hl ha
      exact exists_operator hdeclares hσ hcode l (.part h (.left hl ht)) e' he'
    · have hr := Operand.isLoaded_of_mem_operators he'
      obtain ⟨t, _, _, ht, -, -⟩ := fetch_eq_ok_of_isLoaded hr hb
      exact exists_operator hdeclares hσ hcode r (.part h (.right ha hr ht)) e' he'
  | .unary .neg e =>
    obtain ⟨a, m₁, ha, -⟩ := load_neg_eq_ok hload
    have he := Operand.isLoaded_of_mem_operators (e := e) he'
    obtain ⟨t, _, _, ht, -, -⟩ := fetch_eq_ok_of_isLoaded he ha
    exact exists_operator hdeclares hσ hcode e (.part h (.neg he ht)) e' he'
  | .unary .not e =>
    obtain ⟨a, m₁, ha, -⟩ := load_not_eq_ok hload
    obtain ⟨t, _, _, ht, -, -⟩ := viaTemporary_eq_ok ha
    exact exists_operator hdeclares hσ hcode e (.part h (.not ht)) e' he'
  | .logical op l r =>
    obtain ⟨a, m₁, b, m₂, ha, hb, -⟩ := load_logical_eq_ok hload
    rcases mem_cons.1 he' with rfl | he'
    · exact ⟨_, _, dst, m, h, .logical ha hb⟩
    rcases mem_append.1 he' with he' | he'
    · obtain ⟨t, _, _, ht, -, -⟩ := viaTemporary_eq_ok ha
      exact exists_operator hdeclares hσ hcode l (.part h (.logicalLeft ht)) e' he'
    · obtain ⟨t, _, _, ht, -, -⟩ := viaTemporary_eq_ok hb
      exact exists_operator hdeclares hσ hcode r (.part h (.logicalRight ha ht)) e' he'
  | .call callee args =>
    obtain ⟨calling, m₁, result, hcalling, rfl, -⟩ := load_call_eq_ok hload
    refine exists_operators hdeclares hσ hcode args (fun arg harg => ?_) e' he'
    obtain ⟨front', dst', m₂, hpart⟩ := exists_callPart hdeclares hcalling
      (fun piece hpiece => hcode piece (by simp [heq, hpiece])) arg harg
    exact ⟨_, _, _, .part h (.argument hpart)⟩

theorem Loads.exists_operators (hdeclares : table.Declares)
    (hσ : σ.stretch.draft table σ.before = .ok (σ.code, σ.after))
    (hcode : ∀ piece ∈ σ.code, piece.fixup = none) (args : List Operand)
    (h : ∀ arg ∈ args, ∃ front dst m, σ.Loads table front arg dst m) :
    ∀ e' ∈ Operand.operatorsAll args, ∃ front S, σ.HasOperator table front e' S := by
  intro e' he'
  match args with
  | [] => simp [Operand.operatorsAll] at he'
  | arg :: rest =>
    obtain ⟨harg, hrest⟩ := forall_mem_cons.1 h
    rcases mem_append.1 he' with he' | he'
    · obtain ⟨_, _, _, hload⟩ := harg
      exact Loads.exists_operator hdeclares hσ hcode arg hload e' he'
    · exact exists_operators hdeclares hσ hcode rest hrest e' he'

end

end Site

/-- **Every operator in the operands of a stretch is evaluated by its code.** -/
theorem Point.Begins.exists_operator (h : P.Begins table σ) (hdeclares : table.Declares)
    (hcode : ∀ piece ∈ σ.code, piece.fixup = none) {o e : Operand}
    (ho : o ∈ σ.stretch.instr.operands) (he : e ∈ o.operators) :
    ∃ front S, σ.HasOperator table front e S := by
  have hσ := h.draft_eq
  have hvar : ∀ name, o ≠ .var name := (Operand.isLoaded_of_mem_operators he).2
  have hfound {front : List Piece} {dst : Register} {m : RegisterMap}
      (h : σ.Loads table front o dst m) : ∃ front S, σ.HasOperator table front e S :=
    h.exists_operator hdeclares hσ hcode o e he
  cases h with
  | @plain i hi rest b b₁ offset pieces hpieces =>
    cases i with
    | declare name value =>
      obtain rfl := mem_singleton.1 ho
      obtain ⟨_, _, ⟨⟩, hassign⟩ := run_bind_eq_ok.1 hpieces
      obtain ⟨binding, m, m', hbind, -, rfl⟩ := draftAssign_eq_ok hassign
      exact hfound (.set (.inr rfl) hbind)
    | assign name value =>
      obtain rfl := mem_singleton.1 ho
      obtain ⟨binding, m, m', hbind, -, rfl⟩ := draftAssign_eq_ok hpieces
      exact hfound (.set (.inl rfl) hbind)
    | print value =>
      obtain rfl := mem_singleton.1 ho
      obtain ⟨⟨inner, r⟩, b₁, htest, ⟨⟩⟩ := run_bind_eq_ok.1 hpieces
      obtain ⟨t, m, _, _, ht, -, -⟩ := loadsTemporary_of_draftTest hvar htest
      exact hfound (.use (.inl rfl) hvar ht)
    | call callee args =>
      obtain ⟨m', hm', rfl⟩ := environment_request_eq_ok hpieces
      obtain ⟨front, dst, m, hpart⟩ := exists_callPart hdeclares hm' hcode o ho
      exact hfound (.argument (.inl rfl) hpart)
    | expr value =>
      obtain rfl := mem_singleton.1 ho
      by_cases hcall : ∃ callee args, o = .call callee args
      · obtain ⟨callee, args, rfl⟩ := hcall
        obtain ⟨m', hm', rfl⟩ := environment_request_eq_ok hpieces
        refine Site.Loads.exists_operators hdeclares hσ hcode args (fun arg harg => ?_) e he
        obtain ⟨front, dst, m, hpart⟩ := exists_callPart hdeclares hm' hcode arg harg
        exact ⟨_, _, _, .argument (.inr rfl) hpart⟩
      · have hcall : ∀ callee args, o ≠ .call callee args := fun c as heq => hcall ⟨c, as, heq⟩
        obtain ⟨t, m, _, _, ht, -, -⟩ := loadsTemporary_of_draftExpr hcall hpieces
        exact hfound (.use (.inr (.inr (.inr ⟨rfl, hcall⟩))) hvar ht)
    | ret value =>
      obtain rfl := mem_singleton.1 ho
      obtain ⟨binding, m, inner, m', hm, -, -, rfl⟩ := draftRet_eq_ok hpieces
      exact hfound (.ret rfl hm)
    | ifBegin cond | whileBegin cond =>
      obtain ⟨hopens, -⟩ := hi
      cases hopens
    | _ => cases ho
  | @ifTest cond body rest b b₁ offset pieces test htest
  | @choiceTest cond body other rest b b₁ offset pieces test htest =>
    obtain rfl := mem_singleton.1 ho
    obtain ⟨t, m, _, _, ht, -, -⟩ := loadsTemporary_of_draftTest hvar htest
    exact hfound (.use (.inr (.inl rfl)) hvar ht)
  | @loopTest cond body rest b b₁ offset pieces test htest =>
    obtain rfl := mem_singleton.1 ho
    obtain ⟨t, m, _, _, ht, -, -⟩ := loadsTemporary_of_draftLoopTest hvar htest
    exact hfound (.use (.inr (.inr (.inl rfl))) hvar ht)
  | @again cond body rest b b₁ b₂ b₃ offset pieces again test inner htest hinner hagain =>
    obtain rfl := mem_singleton.1 ho
    -- a condition that is no variable is computed into a temporary
    obtain ⟨_, _, ⟨⟩, hloop⟩ := run_bind_eq_ok.1 htest
    split at hloop
    · exact (hvar _ rfl).elim
    · obtain ⟨f, b₄, -, ⟨⟩⟩ := run_bind_eq_ok.1 hloop
      exact hfound (.again rfl)

/-! ## The code of the sides in the program -/

namespace Site.HasOperator

variable {front : List Piece} {e : Operand}

/-- **The sides of an operator in the code of a stretch.** -/
theorem code_eq (h : σ.HasOperator table front e S)
    (hσ : σ.stretch.draft table σ.before = .ok (σ.code, σ.after)) :
    ∃ back, σ.code = front ++ (S.left ++ (S.right ++ (plain S.operation ++ back))) := by
  obtain ⟨dst, m, hload, hsides⟩ := h
  obtain ⟨inner, m', back, hinner, heq⟩ := hload.code_eq hσ
  refine ⟨back, ?_⟩
  rw [heq, hsides.code_eq hinner]
  simp

/-- The code of a stretch, cut before the right side of an operator. -/
theorem exists_shapes (h : σ.HasOperator table front e S)
    (hσ : σ.stretch.draft table σ.before = .ok (σ.code, σ.after)) {t : Shape}
    (hcode : σ.code = plain t.instructions) :
    ∃ f r u : Shape, t = f.append (r.append u) ∧ f.size = width (front ++ S.left) ∧
      S.right = plain r.instructions ∧ r.All (Lawful table S.rhs.calls) ∧ 0 < u.size ∧
      ∀ test body rest, u ≠ .loop test body rest := by
  obtain ⟨back, heq⟩ := h.code_eq hσ
  have hfixup : ∀ piece ∈ σ.code, piece.fixup = none := by
    rw [hcode]
    simp [plain]
  obtain ⟨dst, m, hload, hsides⟩ := h
  obtain ⟨hfront, hcalls⟩ := hload.formed fun _ => id
  obtain ⟨hleft, hright⟩ := hsides.formed hcalls
  obtain ⟨f, hf, -⟩ := (hfront.append hleft).exists_shape fun piece hpiece =>
    hfixup piece (by rw [heq, ← append_assoc]; exact mem_append_left _ hpiece)
  obtain ⟨r, hr, hall⟩ := hright.exists_shape fun piece hpiece =>
    hfixup piece (by simp [heq, hpiece])
  obtain ⟨i, is, hoperation, hi⟩ := hsides.exists_plain
  have hinstructions := congrArg Piece.all hcode
  rw [heq, ← append_assoc, hf, hr, hoperation, Piece.all_plain, Piece.all_append,
    Piece.all_append, Piece.all_plain, Piece.all_plain, Piece.all_append, Piece.all_plain]
    at hinstructions
  obtain ⟨v, rfl, hv⟩ := Shape.exists_append hinstructions.symm
  obtain ⟨u, rfl, hu⟩ := Shape.exists_append hv
  exact ⟨f, r, u, rfl, by rw [hf, width_plain], hr, hall, Shape.of_head hu hi⟩

end Site.HasOperator

namespace Assembled

variable {code : List Instr} {image : Image} (a : Assembled code image)

/-- The left side is a variable whose register evaluating the right side sets: an argument is passed
there, or a function that is called sets it. -/
def Overtakes (σ : Site) (e : Operand) (S : Sides) : Prop :=
  ∃ op name r, e = .binary op (.var name) S.rhs ∧ S.place = regSource r ∧
    (keyIn σ.after.scope name ∈ S.rhs.assigns a.table.signatures ∨
      ∃ callee ∈ S.rhs.calls, ∃ g, a.IsReached callee g ∧ Sets g.code r)

/-- The left side is in a temporary of a function whose register goes to a name that the function
mentions and a function called in the right side sets. -/
def Shares (p : Part) (S : Sides) : Prop :=
  p.scope ≠ none ∧ ∃ r x, S.place = regSource r ∧ a.holder r = some (.named x) ∧
    x ∈ a.mentions p ∧ ∃ callee ∈ S.rhs.calls, ∃ g, a.IsReached callee g ∧ x ∈ a.assigns g

end Assembled

namespace Tied

variable {code : List Instr} {image : Image} {a : Assembled code image} {l : Linked image}
variable {turns : List Turn} {p : Part} {front : List Piece} {e : Operand} {who : Option Function}

theorem InTurnAt.owner_eq {t : Turn} (hat : InTurnAt a l p P t)
    (howner : l.Owner who P.offset s) : who = some t.routine.function := by
  obtain ⟨b₁, b₂, -, -, -, rfl⟩ := hat.drafted
  obtain ⟨s', howner', -⟩ := hat.shape
  exact (howner.unique howner' ⟨Nat.le_refl _, Nat.le_add_right _ _⟩
    ⟨Nat.le_refl _, Nat.le_add_right _ _⟩).1

theorem regSource_injective {r' : Register} (h : regSource r = regSource r') : r = r' :=
  Register.byte_injective (Source.reg.inj h)

/-- **What changes on the way through the right side of an operator.** -/
theorem overtakes_or_shares (h : Tied a l turns) (hP : a.Begins p P) (hσ : P.HasSite a.table σ)
    (hop : σ.HasOperator a.table front e S) (howner : l.Owner who P.offset s)
    (hplace : S.place = regSource r) (htouches : l.Touches who S.rhs.calls (Piece.all S.right) r) :
    a.Overtakes σ e S ∨ a.Shares p S := by
  obtain ⟨back, hcode⟩ := hop.code_eq (hσ.choose_spec.2.draft_eq)
  obtain ⟨dst, m, hload, hsides⟩ := hop
  -- what the right side itself sets is held by a name or free when it begins
  have hright (hr : Sets (Piece.all S.right) r) := hsides.maySet_right hr
  rcases hsides.place_cases with ⟨v, hv⟩ | ⟨op, name, r', rfl, hr', hheld⟩ |
    ⟨r', hr', hfree, hheld, hleft⟩
  · rw [hplace] at hv
    cases hv
  · obtain rfl := regSource_injective (hplace.symm.trans hr')
    refine .inl ⟨op, name, r, rfl, hplace, ?_⟩
    rcases htouches with hr | ⟨callee, hcallee, g, base, body, hreach, -, hgowner, hset⟩
    · rcases hright hr with hnone | ⟨x, hx, hnamed⟩
      · rw [hheld] at hnone
        cases hnone
      · rw [hheld] at hnamed
        cases hnamed
        exact .inl hx
    · obtain ⟨u, -, -, hsetu, q, hq, hof⟩ := h.exists_reached hreach hgowner hset
      exact .inr ⟨callee, hcallee, q, hq, (hof.sets_iff r).2 hsetu⟩
  · obtain rfl := regSource_injective (hplace.symm.trans hr')
    rcases htouches with hr | ⟨callee, hcallee, g, base, body, hreach, hne, hgowner, hset⟩
    · rcases hright hr with hnone | ⟨x, -, hnamed⟩
      · rw [hheld] at hnone
        cases hnone
      · rw [hheld] at hnamed
        cases hnamed
    obtain ⟨u, hu, rfl, hsetu⟩ := h.exists_turn_of_owner hgowner hset
    -- the temporary was free when the part began
    obtain ⟨hgrants, hsince⟩ := h.since_site hP hσ
    have hstart := (hload.since hσ.framed.scope_eq hgrants hsince).2.start_eq_none hfree
    rcases h.begins_cases hP with ⟨-, -, rfl⟩ | ⟨t, ht, hat⟩
    · exact ((h.inTurn.mentions_of_sets hu hsetu).1 hstart).elim
    · have hsett : Sets t.code r := hat.sets hσ (by simp [hcode, hleft])
      have htu : t ≠ u := by
        rintro rfl
        exact hne (hat.owner_eq howner).symm
      obtain ⟨b₁, b₂, -, hbefore, -, rfl⟩ := hat.drafted
      have htaken := ((h.inTurn.lowered t ht).sets hsett).resolve_right (by
        rintro ⟨x, -, hnamed⟩
        rw [← hbefore, show b₁.registers.holder r = none from hstart] at hnamed
        cases hnamed)
      obtain ⟨x, hx, hnamed⟩ := ((h.inTurn.lowered u hu).sets hsetu).resolve_left
        fun hutaken => h.inTurn.not_takes_both ht hu htu ⟨htaken, hutaken⟩
      have hholder : a.holder r = some (.named x) :=
        h.inTurn.last u hu ((h.inTurn.lowered u hu).kept hnamed)
      obtain ⟨q, hq, hof⟩ := h.exists_part hu
      refine .inr ⟨by simp [hat.isOf.scope_eq, Turn.scope], r, x, hplace, hholder, ?_, callee,
        hcallee, q, ⟨hq, _, hof.scope_eq, h.functions_eq ▸ hreach⟩, ?_⟩
      · rw [mentions_eq hat.isOf]
        exact (h.inTurn.mentions_of_sets ht hsett).2 x hholder
      · rw [assigns_eq hof]
        exact hx

end Tied

/-- **The left side of an operator is evaluated before the right one.** Every operator in the
operands of a stretch has code for its left side, its right side and itself, in this order. When the
operator is about to be applied, the run has been at the start of the right side, with the same
unfinished calls, and has been in the right side or in calls made there since. The value of the left
side is the one that it had then, but for a variable that the right side overtakes, and for a
temporary of a function that shares its register with a name. -/
theorem assemble_evaluates_left_first {code : List Instr} {image : Image}
    (h : assemble code = .ok image) :
    ∃ a : Assembled code image, ∀ p σ, a.HasSite p σ →
      (∀ o ∈ σ.stretch.instr.operands, ∀ e ∈ o.operators,
        ∃ front S, σ.HasOperator a.table front e S) ∧
      ∀ front e S, σ.HasOperator a.table front e S →
        (∃ back, σ.code = front ++ (S.left ++ (S.right ++ (plain S.operation ++ back)))) ∧
        ∀ config t, Session.Runs config image.code t → t.isActive image.code = true →
          t.machine.pc = σ.start + width (front ++ S.left) + width S.right →
          ∃ s, Session.Runs config image.code s ∧
            s.machine.pc = σ.start + width (front ++ S.left) ∧
            s.machine.calls = t.machine.calls ∧
            Session.While config image.code
              (s.Stays s.machine.pc (s.machine.pc + width S.right)) s t ∧
            (t.machine.value S.place = s.machine.value S.place ∨
              a.Overtakes σ e S ∨ a.Shares p S) := by
  obtain ⟨a⟩ := exists_assembled h
  obtain ⟨l, turns, htied⟩ := exists_tied a
  obtain ⟨level, hlevels⟩ := exists_level_of_checkRecursion l.acyclic
  refine ⟨a, fun p σ hsite => ?_⟩
  obtain ⟨P, hP, hσ⟩ := hsite
  have ⟨Q, _, hbegins⟩ := hσ
  obtain ⟨who, body, ending, d, b, howner, -, hd, hshape, hending⟩ := htied.exists_draft hP
  obtain ⟨stretch, hcode, -, hseg⟩ := hσ.exists_segment hd hshape
  refine ⟨fun o ho e he => hbegins.exists_operator a.declares (by simp [hcode, plain]) ho he,
    fun front e S hop => ⟨hop.code_eq hbegins.draft_eq, fun config t ht hactive hpc => ?_⟩⟩
  obtain ⟨f, r, u, rfl, hf, hright, hall, hu, hloop⟩ := hop.exists_shapes hbegins.draft_eq hcode
  have hfits : (body.append ending).Fits := by
    refine Shape.fits_append.2 ⟨howner.fits, ?_⟩
    rcases hending with rfl | rfl <;> trivial
  have hsize : ending.size ≤ 1 := by
    rcases hending with rfl | rfl
    · exact Nat.zero_le 1
    · exact Nat.le_refl 1
  -- the right side and all that follows it are a run of statements
  have hrun : Shape.Segment (body.append ending) P.offset (r.append u) (σ.start + f.size) :=
    hseg.trans (.behind _ _ _)
  have hbounds := hrun.bounds
  rw [Shape.size_append, Shape.size_append] at hbounds
  have hcontains := (hrun.trans .here).contains hfits (by omega)
  have henters := (hrun.enters_append hfits hu hloop).of_append
  rw [← hf, hright, width_plain] at hpc ⊢
  have hrunning := (Session.isActive_iff.1 hactive).1
  obtain ⟨s, hs, hspc, hcalls, hthrough⟩ : ∃ s, Session.Runs config image.code s ∧
      s.machine.pc = σ.start + f.size ∧ s.machine.calls = t.machine.calls ∧
      Session.While config image.code (fun v => True ∧
        s.Stays (σ.start + f.size) (σ.start + f.size + r.size) v) s t := by
    by_cases hempty : r.size = 0
    · exact ⟨t, ht, by omega, rfl, .refl⟩
    · exact Linked.exists_entry howner henters (by omega) ht hrunning .top (by omega)
  refine ⟨s, hs, hspc, hcalls, hspc ▸ hthrough.mono fun v hv => hv.2, ?_⟩
  by_cases hsame : t.machine.value S.place = s.machine.value S.place
  · exact .inl hsame
  obtain ⟨reg, hplace⟩ : ∃ reg, S.place = regSource reg := by
    obtain ⟨dst, m, -, hsides⟩ := hop
    rcases hsides.place_cases with ⟨v, hv⟩ | ⟨_, _, reg, -, hreg, -⟩ | ⟨reg, hreg, -⟩
    · rw [hv] at hsame
      exact (hsame rfl).elim
    · exact ⟨reg, hreg⟩
    · exact ⟨reg, hreg⟩
  rw [hplace] at hsame
  refine .inr (htied.overtakes_or_shares hP hσ hop howner hplace ?_)
  rw [hright, Piece.all_plain]
  exact Linked.touches_of_through hlevels howner hcontains (htied.table_eq ▸ hall)
    (hs.reachable .start) hspc hthrough hcalls.symm hsame

/-! ## Two sums -/

/-- The left side of the operator in `keptLeft`. -/
def product : Operand := .binary .mul (.var "x") (.int 2)

/-- The left side is a product, which is computed into a temporary before the call sets `x`. -/
def keptLeft : Nested :=
  .enclosed (.function "f" [])
    (.plain (.assign "x" (.int 100)) ⟨rfl, rfl, nofun⟩
      (.plain (.ret (.int 1)) ⟨rfl, rfl, nofun⟩ .nil))
    (.plain (.declare "x" (.int 1)) ⟨rfl, rfl, nofun⟩
      (.plain (.print (.binary .add product (.call "f" [])))
        ⟨rfl, rfl, nofun⟩ .nil))

theorem image_keptLeft : (assemble keptLeft.flatten).map (fun image =>
    (image.code, image.symbols.entries)) = .ok
      ([0x10, 1, 1, 0x13, 3, 0x81, 2, 0x30, 20, 0x11, 4, 0x80, 0, 0x11, 2, 0x83, 0x84, 0x20, 2,
        0xFF, 0x10, 1, 100, 0x10, 0, 1, 0x40], [("f", 20)]) :=
  assemble_of_levels (fun _ => 0) (by decide) (by decide +kernel)

/-- The table of `keptLeft`, its function at offset 20. -/
def keptLeftTable : FunctionTable := ⟨[("f", [])], [("f", 20)]⟩

/-- The registers before `keptLeft` is lowered: only that of the result is taken. -/
def keptLeftStart : Bindings := ⟨RegisterMap.empty.take ⟨0, by decide⟩ (.named returnName), none⟩

/-- The table and the registers with which `keptLeft` is lowered. -/
theorem Assembled.keptLeft_eq (a : Assembled keptLeft.flatten image)
    (h : image.symbols.entries = [("f", 20)]) :
    a.table = keptLeftTable ∧ a.initial = keptLeftStart := by
  have hsignatures := a.signatures_eq
  have haddresses := a.addresses_eq
  have hparameters := a.parameters_eq
  rw [(a.tree_eq rfl).2] at hsignatures haddresses hparameters
  have hmem : ("f", 20) ∈ a.table.addresses := (a.symbols_iff "f" 20).1 (by simp [h])
  have hstart : bindParameters (keptLeft.routines.map Routine.function) .start =
      .ok ((), .of .empty keptLeftStart []) := by rfl
  constructor
  · generalize a.table = table at hsignatures haddresses hmem
    generalize a.main.size = offset at haddresses
    obtain ⟨signatures, addresses⟩ := table
    cases hsignatures
    cases hdrafts : a.drafts.map Draft.size with
    | nil =>
      rw [hdrafts] at haddresses
      cases haddresses
      cases hmem
    | cons size sizes =>
      rw [hdrafts] at haddresses
      cases haddresses
      cases hmem with
      | head => rfl
      | tail _ hmem => cases hmem
  · generalize a.initial = b at hparameters
    obtain ⟨registers, scope⟩ := b
    cases hparameters.symm.trans hstart
    rfl

/-- The number of bytes before the operator of `keptLeft`, and of its sides. -/
def keptLeftWidths : Drafting (Nat × Nat × Nat) := do
  let _ ← draftAll keptLeftTable keptLeft.routines
  let first ← draftPlain keptLeftTable (.declare "x" (.int 1))
  let sides ← request (do
    let t ← temp
    let l ← fetch ⟨keptLeftTable, none⟩ product (load ⟨keptLeftTable, none⟩ product)
    let r ← fetch ⟨keptLeftTable, none⟩ (.call "f" []) (load ⟨keptLeftTable, none⟩ (.call "f" []))
    let _ ← operate .add t l.place r.place
    return (width l.code, width r.code))
  return (width first, sides)

theorem keptLeftWidths_eq : ∃ b, keptLeftWidths keptLeftStart = .ok ((3, 4, 6), b) := by
  have hwidths : (keptLeftWidths keptLeftStart).map Prod.fst = .ok (3, 4, 6) :=
    eq_ok_of_toOption (by decide +kernel)
  obtain ⟨r, hr, heq⟩ := map_eq_ok.1 hwidths
  exact ⟨r.2, by rw [hr, ← heq]⟩

/-- The operator of `keptLeft` in its code. -/
theorem Assembled.exists_operator_keptLeft (a : Assembled keptLeft.flatten image)
    (h : image.symbols.entries = [("f", 20)]) :
    ∃ p σ S, a.HasSite p σ ∧
      σ.HasOperator a.table [] (.binary .add product (.call "f" [])) S ∧ p.scope = none ∧
      σ.start = 3 ∧ width S.left = 4 ∧ width S.right = 6 := by
  obtain ⟨htable, hstart⟩ := a.keptLeft_eq h
  obtain ⟨hbody, hroutines⟩ := a.tree_eq rfl
  obtain ⟨l, turns, htied⟩ := exists_tied a
  have hbegins : a.Begins _ _ := .main ⟨_, htied.main, rfl⟩
  have hdrafts := a.drafts_eq
  obtain ⟨d, hd, -⟩ := mainDraft_eq_ok a.main_eq
  rw [hbody] at hbegins
  rw [htable, hroutines, hstart] at hdrafts
  rw [htable, hbody] at hd
  -- the widths are computed from point to point
  obtain ⟨b, hwidths⟩ := keptLeftWidths_eq
  obtain ⟨_, _, hbetween, hwidths⟩ := run_bind_eq_ok.1 hwidths
  cases hdrafts.symm.trans hbetween
  obtain ⟨first, b₁, hfirst, hwidths⟩ := run_bind_eq_ok.1 hwidths
  obtain ⟨widths, _, hrequest, hwidths⟩ := run_bind_eq_ok.1 hwidths
  obtain ⟨m, hsides, -⟩ := request_eq_ok hrequest
  obtain ⟨t, m₁, ht, hsides⟩ := run_bind_eq_ok.1 hsides
  obtain ⟨left, m₂, hleft, hsides⟩ := run_bind_eq_ok.1 hsides
  obtain ⟨right, m₃, hright, hsides⟩ := run_bind_eq_ok.1 hsides
  obtain ⟨is, m₄, his, hsides⟩ := run_bind_eq_ok.1 hsides
  cases hsides
  obtain ⟨_, _, _, hfirst', hd, -⟩ := Body.draft_plain_eq_ok hd
  cases hfirst.symm.trans hfirst'
  obtain ⟨pieces, b₂, _, hprint, -⟩ := Body.draft_plain_eq_ok hd
  rw [← htable] at hfirst hprint hleft hright
  have hnext : Point.Next a.table ⟨keptLeft.body, a.between, 0⟩ _ := .plain hfirst
  have hsite : Point.HasSite a.table ⟨keptLeft.body, a.between, 0⟩ _ :=
    .of_next hnext (.of_begins (.plain hprint))
  have hscope : b₂.scope = none := by
    have hdeclare : Point.HasSite a.table ⟨keptLeft.body, a.between, 0⟩ _ :=
      .of_begins (.plain hfirst)
    exact hsite.framed.scope_eq.trans (hdeclare.framed.scope_eq.trans (by rw [htied.scope_eq]; rfl))
  rw [← hscope] at hleft hright
  refine ⟨_, _, _, ⟨_, hbegins, hsite⟩, ⟨t, m₁, .use (.inl rfl) nofun ht,
    .binary hleft hright his⟩, rfl, ?_⟩
  obtain ⟨hwidths, -⟩ := Prod.mk.inj (Except.ok.inj hwidths)
  simp only [Prod.mk.injEq] at hwidths
  simpa using hwidths

/-- The product is in its temporary before the call, and still there when the sum is computed. -/
theorem assemble_evaluates_left_first_keptLeft :
    ∃ image, assemble keptLeft.flatten = .ok image ∧
      ∃ (a : Assembled keptLeft.flatten image) (p : Part) (σ : Site) (S : Sides) (s t : Session),
        a.HasSite p σ ∧ σ.HasOperator a.table [] (.binary .add product (.call "f" [])) S ∧
        Session.Runs .default image.code t ∧ t.isActive image.code = true ∧
        t.machine.pc = σ.start + width ([] ++ S.left) + width S.right ∧
        Session.Runs .default image.code s ∧ s.machine.pc = σ.start + width ([] ++ S.left) ∧
        s.machine.calls = t.machine.calls ∧
        Session.While .default image.code
          (s.Stays s.machine.pc (s.machine.pc + width S.right)) s t ∧
        t.machine.value S.place = s.machine.value S.place := by
  obtain ⟨image, h, himage⟩ := map_eq_ok.1 image_keptLeft
  obtain ⟨hcode, hsymbols⟩ := Prod.mk.inj himage
  have hrun : (Session.runFor .default image.code 7 .start).2 = .unfinished ∧
      (sessionAfter image.code 7).isActive image.code = true ∧
      (sessionAfter image.code 7).machine.pc = 13 := by
    rw [hcode]
    decide +kernel
  obtain ⟨hending, hactive, hpc⟩ := hrun
  obtain ⟨a, hsites⟩ := assemble_evaluates_left_first h
  obtain ⟨p, σ, S, hσ, hS, hscope, hstart, hleft, hright⟩ := a.exists_operator_keptLeft hsymbols
  have hpc' : (sessionAfter image.code 7).machine.pc =
      σ.start + width ([] ++ S.left) + width S.right := by
    rw [hpc, hstart, nil_append, hleft, hright]
  obtain ⟨s, hs, hspc, hcalls, hwhile, hvalue | hovertakes | hshares⟩ :=
    ((hsites p σ hσ).2 _ _ S hS).2 _ _ (runs_sessionAfter hending) hactive hpc'
  · exact ⟨image, h, a, p, σ, S, s, _, hσ, hS, runs_sessionAfter hending, hactive, hpc', hs,
      hspc, hcalls, hwhile, hvalue⟩
  · obtain ⟨op, name, r, heq, -⟩ := hovertakes
    cases heq
  · exact (hshares.1 hscope).elim

/-- The left side is a variable, which the function sets. -/
def overtaken : List Instr :=
  [.funcDecl "f" [], .assign "x" (.int 100), .ret (.int 1), .endFunc, .declare "x" (.int 1),
    .print (.binary .add (.var "x") (.call "f" []))]

theorem code_overtaken : (assemble overtaken).map Image.code = .ok
    [0x10, 1, 1, 0x30, 16, 0x11, 3, 0x80, 0, 0x11, 2, 0x81, 0x83, 0x20, 2, 0xFF, 0x10, 1, 100,
      0x10, 0, 1, 0x40] :=
  assemble_of_levels (fun _ => 0) (by decide) (by decide +kernel)

/-- **A call on the right overtakes a variable on the left.** The register of `x` is 1 when the
right side of the sum begins, and 100 when the sum is computed from it. -/
theorem overtaken_reads_variable_late : ∃ image, assemble overtaken = .ok image ∧
    ∃ s t : Session, Session.Runs .default image.code s ∧
      Instruction.decode image.code s.machine.pc = .ok (.call 16) ∧
      Session.runFor .default image.code 5 s = (t, .unfinished) ∧
      t.machine.calls = s.machine.calls ∧
      Instruction.decode image.code t.machine.pc = .ok (.arith .add 2 (.reg 1) (.reg 3)) ∧
      s.machine.get 1 = 1 ∧ t.machine.get 1 = 100 := by
  obtain ⟨image, h, hcode⟩ := map_eq_ok.1 code_overtaken
  refine ⟨image, h, sessionAfter image.code 1, _, runs_sessionAfter ?_, ?_, Prod.ext rfl ?_, ?_, ?_,
    ?_, ?_⟩ <;> rw [hcode] <;> decide +kernel

end ImpMachine
