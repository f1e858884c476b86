import Mathlib.Data.Fintype.Card
import ImpMachine.Proofs.Ownership

/-!
# Temporaries are given back

Lowering an operand takes registers for intermediate values and hands some of them on to be released
by the caller, and it may give registers to names, of variables, of parameters and of the last
returned value. While it goes on, the register map differs from the first one by the temporaries
that are lent and by such names (`Lends`). What every request does to the lent temporaries is said
once (`Leaves`). So after all releases the temporaries are those from before, no name has lost its
register, and what was free and is held now is held by a name (`Settled`).
-/

namespace ImpMachine

open Assembly List

variable {ts : List Register}

namespace RegisterMap

variable {m m' m'' : RegisterMap} {us : List Register} {x : String} {r : Register}

/-- The registers that are held as temporaries. -/
def temporaries (m : RegisterMap) : Finset Register :=
  Finset.univ.filter fun r => m.holder r = some .temporary

@[simp] theorem mem_temporaries : r ∈ m.temporaries ↔ m.holder r = some .temporary := by
  simp [temporaries]

/-- Nothing is lent: the temporaries are the same, the names keep their registers, and a new holder
is a name on a free register. -/
structure Settled (m m' : RegisterMap) : Prop where
  temporaries : m'.temporaries = m.temporaries
  named : ∀ r x, m.holder r = some (.named x) → m'.holder r = some (.named x)
  lookup : ∀ x r, m.lookup x = some r → m'.lookup x = some r
  added : ∀ r, m'.holder r ≠ m.holder r →
    m.holder r = none ∧ ∃ x, m'.holder r = some (.named x)

/-- The second map has the registers as temporaries, free in the first. All that is held stays, and
other registers are taken only by names that had none. -/
structure Lends (ts : List Register) (m m' : RegisterMap) : Prop where
  free : ∀ t ∈ ts, m.holder t = none
  taken : ∀ t ∈ ts, m'.holder t = some .temporary
  kept : ∀ {r holder}, m.holder r = some holder → m'.holder r = some holder
  fresh : ∀ r ∉ ts, m.holder r = none →
    m'.holder r = none ∨ ∃ x, m.lookup x = none ∧ m'.holder r = some (.named x)

/-- What is borrowed is lent. -/
theorem Borrows.lends (h : Borrows ts m m') : Lends ts m m' :=
  ⟨h.free, h.taken, h.holder, fun r hr hnone => .inl ((h.other r hr).trans hnone)⟩

namespace Lends

theorem eq_none (h : Lends ts m m') (hr : m'.holder r = none) : m.holder r = none := by
  cases hm : m.holder r with
  | none => rfl
  | some holder =>
    rw [h.kept hm] at hr
    cases hr

theorem lookup_eq_none (h : Lends ts m m') (hx : m'.lookup x = none) : m.lookup x = none := by
  cases hm : m.lookup x with
  | none => rfl
  | some r =>
    obtain ⟨r', hr'⟩ := exists_lookup_of_holder (h.kept (holder_of_lookup hm))
    rw [hr'] at hx
    cases hx

/-- What is lent in two steps is lent together. -/
theorem trans (h : Lends ts m m') (h' : Lends us m' m'') : Lends (ts ++ us) m m'' := by
  refine ⟨fun t ht => ?_, fun t ht => ?_, fun hr => h'.kept (h.kept hr), fun r hr hnone => ?_⟩
  · rcases mem_append.1 ht with ht | ht
    · exact h.free t ht
    · exact h.eq_none (h'.free t ht)
  · rcases mem_append.1 ht with ht | ht
    · exact h'.kept (h.taken t ht)
    · exact h'.taken t ht
  · rw [mem_append, not_or] at hr
    rcases h.fresh r hr.1 hnone with hfree | ⟨x, hx, hnamed⟩
    · refine (h'.fresh r hr.2 hfree).imp_right ?_
      rintro ⟨x, hx, hnamed⟩
      exact ⟨x, h.lookup_eq_none hx, hnamed⟩
    · exact .inr ⟨x, hx, h'.kept hnamed⟩

/-- Giving back all that was lent. -/
theorem releaseAll (h : Lends ts m m') : Lends [] m (m'.releaseAll (ts.map Fin.val)) := by
  refine ⟨by simp, by simp, fun {r holder} hr => ?_, fun r _ hnone => ?_⟩
  · have hne : r ∉ ts := by
      intro hmem
      rw [h.free r hmem] at hr
      cases hr
    rw [holder_releaseAll_of_not fun hr' => hne hr'.1]
    exact h.kept hr
  · by_cases hr : r ∈ ts
    · exact .inl (holder_releaseAll_of_mem hr (h.taken r hr))
    · rw [holder_releaseAll_of_not fun hr' => hr hr'.1]
      exact h.fresh r hr hnone

/-- A name takes a free register. -/
theorem take (hr : m.holder r = none) (hx : m.lookup x = none) :
    Lends [] m (m.take r (.named x)) := by
  refine ⟨by simp, by simp, fun {r' holder} hr' => ?_, fun r' _ hnone => ?_⟩
  · have hne : r ≠ r' := by
      rintro rfl
      rw [hr] at hr'
      cases hr'
    rw [holder_take, if_neg hne, hr']
  · rw [holder_take]
    split
    · exact .inr ⟨x, hx, rfl⟩
    · exact .inl hnone

theorem of_bindGlobal {b : Binding} (h : bindGlobal x m = .ok (b, m')) : Lends [] m m' := by
  rcases bindGlobal_cases h with ⟨-, rfl, -⟩ | ⟨hlookup, hfree, rfl, -⟩
  · exact (Borrows.refl m').lends
  · exact take hfree hlookup

theorem of_bind {b : Binding} (h : RegisterMap.bind x m = .ok (b, m')) : Lends [] m m' := by
  rcases bind_cases h with ⟨-, rfl⟩ | ⟨hlookup, hfree, rfl⟩
  · exact (Borrows.refl m').lends
  · -- the note in the block does not change who holds a register
    have htake := take (x := x) hfree hlookup
    refine ⟨by simp, by simp, fun hr => ?_, fun r hr hnone => ?_⟩
    · rw [holder_noteInFrame]
      exact htake.kept hr
    · rw [holder_noteInFrame]
      exact htake.fresh r hr hnone

/-- The temporaries are those from before and the lent ones. -/
theorem temporaries (h : Lends ts m m') : m'.temporaries = m.temporaries ∪ ts.toFinset := by
  ext r
  simp only [mem_temporaries, Finset.mem_union, mem_toFinset]
  constructor
  · intro hr
    by_cases hmem : r ∈ ts
    · exact .inr hmem
    · left
      cases hm : m.holder r with
      | none =>
        rcases h.fresh r hmem hm with hnone | ⟨x, -, hnamed⟩
        · rw [hnone] at hr
          cases hr
        · rw [hnamed] at hr
          cases hr
      | some holder => rw [← hr, h.kept hm]
  · rintro (hr | hr)
    · exact h.kept hr
    · exact h.taken r hr

/-- Only a name without a register may take one. -/
theorem lookup (h : Lends ts m m') (hx : m.lookup x = some r) : m'.lookup x = some r := by
  rw [← hx]
  refine lookup_congr fun r' => ⟨fun hr' => ?_, h.kept⟩
  cases hm : m.holder r' with
  | some holder => rw [← hr', h.kept hm]
  | none =>
    by_cases hmem : r' ∈ ts
    · rw [h.taken r' hmem] at hr'
      cases hr'
    · rcases h.fresh r' hmem hm with hnone | ⟨y, hy, hnamed⟩
      · rw [hnone] at hr'
        cases hr'
      · rw [hnamed] at hr'
        cases hr'
        rw [hx] at hy
        cases hy

theorem settled (h : Lends [] m m') : Settled m m' := by
  refine ⟨by simp [h.temporaries], fun _ _ => h.kept, fun _ _ => h.lookup, fun r hne => ?_⟩
  cases hm : m.holder r with
  | some holder => exact absurd ((h.kept hm).trans hm.symm) hne
  | none =>
    rcases h.fresh r (by simp) hm with hnone | ⟨x, -, hnamed⟩
    · exact absurd (hnone.trans hm.symm) hne
    · exact ⟨rfl, x, hnamed⟩

end Lends

end RegisterMap

open RegisterMap

/-! ## Requests -/

/-- The computation, made when `ts` are lent, leaves these temporaries lent. The register map is a
part of the state. -/
def Leaves {σ α : Type} (view : σ → RegisterMap) (ts : List Register)
    (x : StateT σ (Except AssembleError) α) (u : α → List Register) : Prop :=
  ∀ start s a s', Lends ts start (view s) → x s = .ok (a, s') → Lends (u a) start (view s')

namespace Leaves

variable {σ α β : Type} {view : σ → RegisterMap} {x : StateT σ (Except AssembleError) α}
variable {f : α → StateT σ (Except AssembleError) β} {u : α → List Register} {v : β → List Register}

/-- One computation behind the other. -/
theorem bind (hx : Leaves view ts x u) (hf : ∀ a, Leaves view (u a) (f a) v) :
    Leaves view ts (x >>= f) v := by
  intro start s b s'' hstart h
  obtain ⟨a, s', ha, hb⟩ := run_bind_eq_ok.1 h
  exact hf a start s' b s'' (hx start s a s' hstart ha) hb

theorem pure {a : α} (h : u a = ts) :
    Leaves view ts (pure a : StateT σ (Except AssembleError) α) u := by
  rintro start s b s' hstart ⟨⟩
  rwa [h]

theorem throw (e : AssembleError) :
    Leaves view ts (throw e : StateT σ (Except AssembleError) α) u := by
  rintro start s b s' hstart ⟨⟩

/-- What was lent before stays lent. -/
theorem frame (h : ∀ s a s', x s = .ok (a, s') → Lends (u a) (view s) (view s')) :
    Leaves view ts x fun a => ts ++ u a :=
  fun _ s a s' hstart ha => hstart.trans (h s a s' ha)

/-- What is lent in the end, where nothing was before. -/
theorem lends (h : Leaves view [] x u) {s s' : σ} {a : α} (ha : x s = .ok (a, s')) :
    Lends (u a) (view s) (view s') :=
  h _ s a s' (Borrows.refl _).lends ha

/-- A computation that gives back what it takes leaves the rest lent. -/
theorem kept (h : ∀ s a s', x s = .ok (a, s') → Lends [] (view s) (view s')) :
    Leaves view ts x fun _ => ts := by
  intro start s a s' hstart ha
  simpa using hstart.trans (h s a s' ha)

/-- A computation that gives all back does so beside others. -/
theorem of_closed (h : Leaves view [] x fun _ => []) : Leaves view ts x fun _ => ts :=
  kept fun _ _ _ ha => h.lends ha

end Leaves

/-- A request to the register map, made when `ts` are lent. -/
abbrev Lending {α : Type} (ts : List Register) (x : Allocation α) (u : α → List Register) :
    Prop :=
  Leaves id ts x u

section Requests

/-- A new temporary is lent on top of the others. -/
theorem lending_temp : Lending ts temp fun t => ts ++ [t] :=
  .frame fun _ _ _ ht => (Borrows.of_temp ht).lends

/-- All that is lent can be given back. -/
theorem lending_release : Lending ts (release ts) fun _ => [] := by
  rintro start m a m' hstart ⟨⟩
  exact hstart.releaseAll

theorem lending_bindGlobal (x : String) : Lending ts (bindGlobal x) fun _ => ts :=
  .kept fun _ _ _ => Lends.of_bindGlobal

theorem lending_bind (x : String) : Lending ts (RegisterMap.bind x) fun _ => ts :=
  .kept fun _ _ _ => Lends.of_bind

end Requests

/-! ## Operands -/

/-- The load gives back all that it takes. -/
def Settles (load : Load) : Prop :=
  ∀ dst, Lending [] (load dst) fun _ => []

section Operands

variable {env : Environment} {load : Load} {args : List Load}

theorem lending_readVariable (name : String) : Lending ts (readVariable env name) fun _ => ts := by
  refine .kept fun m a m' h => ?_
  obtain ⟨_, _, ⟨⟩, h⟩ := run_bind_eq_ok.1 h
  cases hlookup : m.lookup (env.key name) with
  | some r =>
    rw [hlookup] at h
    cases h
    exact (Borrows.refl m).lends
  | none =>
    rw [hlookup] at h
    obtain ⟨b, m₁, hb, ⟨⟩⟩ := run_bind_eq_ok.1 h
    exact Lends.of_bind hb

/-- The temporary with the value is lent, and is to be released. -/
theorem lending_viaTemporary (hload : Settles load) {u : Fetched Register → List Register}
    (hu : ∀ code t, u ⟨code, t, [t]⟩ = [t]) : Lending ts (viaTemporary load) fun f => ts ++ u f :=
  lending_temp.bind fun t => (hload t).of_closed.bind fun code => .pure (by rw [hu])

theorem lending_fetchRegister (e : Operand) (hload : Settles load) :
    Lending ts (fetchRegister env e load) fun f => ts ++ f.temporaries := by
  unfold fetchRegister
  split
  · exact (lending_readVariable _).bind fun r => .pure (append_nil ts)
  · exact lending_viaTemporary hload fun _ _ => rfl

/-- A fetched operand holds its temporaries. -/
theorem lending_fetch (e : Operand) (hload : Settles load) :
    Lending ts (fetch env e load) fun f => ts ++ f.temporaries := by
  unfold fetch
  split
  · exact .pure (append_nil ts)
  · exact (lending_fetchRegister e hload).bind fun f => .pure rfl

section Operators

variable (dst : Register) (a b : Source)

theorem lending_compareLess : Lending ts (compareLess dst a b) fun _ => ts :=
  .of_closed (lending_temp.bind fun _ => lending_temp.bind fun _ =>
    lending_release.bind fun _ => .pure rfl)

theorem lending_compareNot : Lending ts (compareNot dst a b) fun _ => ts :=
  .of_closed (lending_temp.bind fun q => (lending_compareLess q a b).bind fun _ =>
    lending_release.bind fun _ => .pure rfl)

theorem lending_compareEqual (same differ : UInt8) :
    Lending ts (compareEqual dst a b same differ) fun _ => ts :=
  .of_closed (lending_temp.bind fun _ => lending_release.bind fun _ => .pure rfl)

theorem lending_operate (op : BinaryOp) : Lending ts (operate op dst a b) fun _ => ts := by
  cases op with
  | add | sub | mul | div => exact .pure rfl
  | mod => exact .of_closed (lending_temp.bind fun _ => lending_release.bind fun _ => .pure rfl)
  | lt | gt => exact lending_compareLess _ _ _
  | ltEq | gtEq => exact lending_compareNot _ _ _
  | eq | notEq => exact lending_compareEqual _ _ _ _ _

end Operators

/-! ## Calls -/

theorem lending_loadTemporaries (hargs : ∀ load ∈ args, Settles load) :
    Lending ts (loadTemporaries args) fun fs => ts ++ fs.map (·.place) := by
  induction args generalizing ts with
  | nil => exact .pure (append_nil ts)
  | cons load rest ih =>
    obtain ⟨hload, hrest⟩ := forall_mem_cons.1 hargs
    refine (lending_viaTemporary (u := fun f => [f.place]) hload fun _ _ => rfl).bind fun f =>
      (ih hrest).bind fun fs => .pure (by simp)

theorem lending_loadArguments (targets : List Register) (hargs : ∀ load ∈ args, Settles load) :
    Lending [] (loadArguments targets args) fun _ => [] := by
  unfold loadArguments
  split
  · -- one argument goes to its parameter at once
    exact hargs _ (mem_singleton_self _) _
  · exact (lending_loadTemporaries hargs).bind fun fs => lending_release.bind fun _ => .pure rfl

theorem lending_parameterRegisters (function : String) (params : List String) :
    Lending ts (parameterRegisters function params) fun _ => ts := by
  induction params with
  | nil => exact .pure rfl
  | cons param rest ih => exact (lending_bindGlobal _).bind fun b => ih.bind fun rs => .pure rfl

theorem lending_callPiece (callee : String) :
    Lending ts (liftM (callPiece env callee) : Allocation Piece) fun _ => ts := by
  intro start m piece m' hstart h
  obtain ⟨_, -, ⟨⟩⟩ := bind_eq_ok.1 h
  exact hstart

/-- A call gives its temporaries back before it is made. -/
theorem lending_callCode (callee : String) (hargs : ∀ load ∈ args, Settles load) :
    Lending [] (callCode env callee args) fun _ => [] := by
  have hpassing (passing : List Piece) :
      Lending [] (do return passing ++ [← liftM (callPiece env callee)] : Allocation (List Piece))
        fun _ => [] :=
    (lending_callPiece callee).bind fun piece => .pure rfl
  unfold callCode
  dsimp only
  split
  · exact Leaves.bind (u := fun _ => []) (.pure rfl) hpassing
  · split
    · exact (lending_parameterRegisters _ _).bind fun targets =>
        (lending_loadArguments targets hargs).bind hpassing
    · exact Leaves.bind (u := fun _ => []) (.throw _) hpassing

end Operands

/-! ## Operands as a whole -/

/-- **Loading an operand gives back all that it takes.** -/
theorem settles_load (env : Environment) (e : Operand) : Settles (load env e) := by
  induction e with
  | number n =>
    intro dst
    unfold load
    split
    · exact .pure rfl
    · exact .throw _
  | text s => exact fun _ => .throw _
  | var name => exact fun dst => (lending_readVariable name).bind fun r => .pure rfl
  | binary op lhs rhs ihlhs ihrhs =>
    exact fun dst => (lending_fetch lhs ihlhs).bind fun a => (lending_fetch rhs ihrhs).bind fun b =>
      (lending_operate dst a.place b.place op).bind fun code =>
        lending_release.bind fun _ => .pure rfl
  | unary op operand ih =>
    intro dst
    cases op with
    | neg =>
      exact (lending_fetch operand ih).bind fun a => lending_release.bind fun _ => .pure rfl
    | not =>
      exact (lending_viaTemporary (u := (·.temporaries)) ih fun _ _ => rfl).bind fun a =>
        lending_release.bind fun _ => .pure rfl
  | logical op lhs rhs ihlhs ihrhs =>
    exact fun dst => (lending_viaTemporary (u := (·.temporaries)) ihlhs fun _ _ => rfl).bind fun a =>
      (lending_viaTemporary (u := (·.temporaries)) ihrhs fun _ _ => rfl).bind fun b =>
        lending_release.bind fun _ => .pure rfl
  | call callee args ih =>
    exact fun dst => (lending_callCode callee (forall_mem_loads.2 ih)).bind fun code =>
      (lending_bindGlobal returnName).bind fun b => .pure rfl

/-- Loading an operand gives back all that it takes. -/
theorem settles_loads (env : Environment) (args : List Operand) :
    ∀ load ∈ loads env args, Settles load :=
  forall_mem_loads.2 fun a _ => settles_load env a

end ImpMachine
