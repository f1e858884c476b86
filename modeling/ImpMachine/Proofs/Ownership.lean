import ImpMachine.Proofs.CallSites
import ImpMachine.Proofs.Holding
import ImpMachine.Proofs.Mentions

/-!
# The registers that a body writes

A body may only bind names that it mentions, and it may only write registers that are its own: those
that were free when it began and that it took since, and those of names that it sets (`Permit`).
Both hold of every request made while the body is lowered, and they compose: what was taken is
marked, and a mark stays. So they hold of the whole body (`owns_draft`), and of each stretch of it
from the registers with which that stretch begins. At the end of a function the registers that it
took and gave back are reserved, hence no two bodies take the same register.
-/

namespace ImpMachine

open Assembly Linear List

variable {r' dst : Register} {is : List Instruction} {ts : List Register} {callee : String}
variable {m m' : RegisterMap}

/-! ## Writing -/

/-- The register that an instruction writes. -/
def Instruction.target? : Instruction → Option UInt8
  | .mov dst _ | .arith _ dst _ _ => some dst
  | _ => none

@[simp] theorem Instruction.target?_endIf : Instruction.endIf.target? = none := rfl

@[simp] theorem Instruction.target?_jump (distance : UInt8) :
    (Instruction.jump distance).target? = none := rfl

/-- Some of the instructions write the register. -/
def Sets (is : List Instruction) (r : Register) : Prop :=
  ∃ i ∈ is, i.target? = some r.byte

/-- Registers have different bytes. -/
theorem Register.byte_injective {r : Register} (h : r.byte = r'.byte) : r = r' := by
  refine Fin.ext ?_
  rw [← r.byte_toNat, ← r'.byte_toNat, h]

@[simp] theorem Register.byte_inj {r : Register} : r.byte = r'.byte ↔ r = r' :=
  ⟨byte_injective, congrArg byte⟩

@[simp] theorem not_sets_nil (r : Register) : ¬Sets [] r := by
  simp [Sets]

@[simp] theorem sets_cons {i : Instruction} {r : Register} :
    Sets (i :: is) r ↔ i.target? = some r.byte ∨ Sets is r := by
  simp [Sets]

@[simp] theorem sets_append {js : List Instruction} {r : Register} :
    Sets (is ++ js) r ↔ Sets is r ∨ Sets js r := by
  simp [Sets, or_and_right, exists_or]

namespace Assembly

@[simp] theorem target?_mov (dst : Register) (v : UInt8) :
    (mov dst v).target? = some dst.byte := rfl

@[simp] theorem target?_arith (op : ArithOp) (dst : Register) (a b : Source) :
    (arith op dst a b).target? = some dst.byte := rfl

@[simp] theorem target?_copy (dst r : Register) : (copy dst r).target? = some dst.byte := rfl

@[simp] theorem target?_skipUnless (r : Register) (body : List Instruction) :
    (skipUnless r body).target? = none := rfl

theorem eq_of_sets_loadConstant {r : Register} (v : Int64)
    (h : Sets (loadConstant dst v) r) : dst = r := by
  obtain ⟨i, hi, htarget⟩ := h
  cases worksIn_loadConstant dst v i hi with
  | mov | arith => simpa using htarget

theorem eq_of_sets_lessThan {e t r : Register} {a b : Source}
    (h : Sets (lessThan dst e t a b) r) : dst = r ∨ e = r ∨ t = r := by
  simp [lessThan, parity, loadSignDivisor] at h
  grind

theorem eq_of_sets_choose {x r : Register} {zero nonzero : UInt8}
    (h : Sets (choose dst x zero nonzero) r) : dst = r := by
  simpa [choose] using h

theorem eq_of_sets_combine {a b r : Register} {op : LogicalOp}
    (h : Sets (combine op dst a b) r) : dst = r := by
  cases op with
  | and => simpa [combine, conjunction] using h
  | or => simpa [combine, disjunction] using h

/-- The instructions of pieces. -/
def Piece.all (pieces : List Piece) : List Instruction := pieces.map Piece.instruction

@[simp] theorem Piece.all_append (p q : List Piece) :
    Piece.all (p ++ q) = Piece.all p ++ Piece.all q := map_append

@[simp] theorem Piece.all_plain (is : List Instruction) : Piece.all (plain is) = is := by
  simp [Piece.all, plain, Function.comp_def]

end Assembly

/-! ## Marks -/

namespace RegisterMap

variable {m'' : RegisterMap} {x : String} {r : Register}

/-- The register was taken since the marks were last cleared. -/
def marked (m : RegisterMap) (r : Register) : Bool :=
  getElem m.touched r r.isLt

theorem marked_take (m : RegisterMap) (r r' : Register) (holder : Holder) :
    (m.take r holder).marked r' = if r = r' then true else m.marked r' := by
  simp [marked, take, Vector.getElem_set, Fin.ext_iff]

theorem touched_noteInFrame (m : RegisterMap) (x : String) :
    (m.noteInFrame x).touched = m.touched := by
  unfold noteInFrame
  split <;> rfl

theorem touched_releaseAll (m : RegisterMap) (numbers : List Nat) :
    (m.releaseAll numbers).touched = m.touched := by
  induction numbers generalizing m with
  | nil => rfl
  | cons n ns ih =>
    refine (ih _).trans ?_
    unfold release
    split
    · split <;> rfl
    · rfl

theorem touched_popScope (m : RegisterMap) : m.popScope.touched = m.touched := by
  have hfold (names : List String) (m : RegisterMap) :
      (names.foldl unbind m).touched = m.touched := by
    induction names generalizing m with
    | nil => rfl
    | cons x names ih =>
      rw [foldl_cons, ih]
      unfold unbind
      split <;> rfl
  unfold popScope
  split
  · rfl
  · exact hfold _ _

/-- A name is found in its register or takes a free one. -/
theorem bindGlobal_cases {b : Binding} (h : bindGlobal x m = .ok (b, m')) :
    m.holder b.register = some (.named x) ∧ m' = m ∧ b.fresh = false ∨
      m.lookup x = none ∧ m.holder b.register = none ∧ m' = m.take b.register (.named x) ∧
        b.fresh = true := by
  unfold bindGlobal at h
  split at h
  · rename_i hlookup
    cases h
    exact .inl ⟨holder_of_lookup hlookup, rfl, rfl⟩
  · rename_i hlookup
    unfold occupy at h
    split at h
    · rename_i hfree
      cases h
      exact .inr ⟨hlookup, free_of_firstFree? hfree, rfl, rfl⟩
    · cases h

/-- Binding a name in a block notes it there if it had no register. -/
theorem bind_cases {b : Binding} (h : bind x m = .ok (b, m')) :
    m.holder b.register = some (.named x) ∧ m' = m ∨
      m.lookup x = none ∧ m.holder b.register = none ∧
        m' = (m.take b.register (.named x)).noteInFrame x := by
  unfold bind at h
  cases hglobal : bindGlobal x m with
  | error e =>
    rw [hglobal] at h
    cases h
  | ok r =>
    obtain ⟨b', m₁⟩ := r
    rw [hglobal] at h
    cases h
    rcases bindGlobal_cases hglobal with ⟨hholder, rfl, hfresh⟩ | ⟨hlookup, hfree, rfl, hfresh⟩
    · exact .inl ⟨hholder, by rw [hfresh]; rfl⟩
    · exact .inr ⟨hlookup, hfree, by rw [hfresh]; rfl⟩

/-- Marks stay, and as many blocks are open. -/
structure Steady (m m' : RegisterMap) : Prop where
  marked : ∀ r, m.marked r = true → m'.marked r = true
  depth : m'.frames.length = m.frames.length

namespace Steady

theorem refl (m : RegisterMap) : Steady m m := ⟨fun _ => id, rfl⟩

theorem trans (h : Steady m m') (h' : Steady m' m'') : Steady m m'' :=
  ⟨fun r hr => h'.marked r (h.marked r hr), h'.depth.trans h.depth⟩

theorem of_touched (h : m'.touched = m.touched) (hframes : m'.frames.length = m.frames.length) :
    Steady m m' := by
  refine ⟨fun r hr => ?_, hframes⟩
  rwa [RegisterMap.marked, h]

theorem take (m : RegisterMap) (r : Register) (holder : Holder) : Steady m (m.take r holder) := by
  refine ⟨fun r' hr' => ?_, rfl⟩
  rw [marked_take]
  split
  · rfl
  · exact hr'

theorem noteInFrame (m : RegisterMap) (x : String) : Steady m (m.noteInFrame x) :=
  of_touched (touched_noteInFrame m x) (by rw [frames_noteInFrame]; simp)

theorem releaseAll (m : RegisterMap) (numbers : List Nat) : Steady m (m.releaseAll numbers) :=
  of_touched (touched_releaseAll m numbers) (by rw [frames_releaseAll])

end Steady

end RegisterMap

/-! ## Permits -/

open RegisterMap

/-- What code may do to registers. -/
structure Permit where
  /-- The names that may take registers. -/
  names : List String
  /-- The names whose registers may be written. -/
  assigned : List String
  /-- Registers that may be written whatever holds them. -/
  lent : List Register
  /-- The register map when the code began. -/
  start : RegisterMap

namespace Permit

variable (p : Permit)

/-- The name had no register at the start. -/
def Fresh (x : String) : Prop := ∀ r, p.start.holder r ≠ some (.named x)

/-- The open blocks are those of the start with more on top. Beside the names of the start they have
only names without a register then. -/
def Noted (frames : List (List String)) : Prop :=
  ∃ opened base, frames = opened ++ base ∧ base.length = p.start.frames.length ∧
    (∀ frame ∈ opened, ∀ x ∈ frame, p.Fresh x) ∧
    ∀ frame ∈ base, ∀ x ∈ frame, p.Fresh x ∨ ∃ old ∈ p.start.frames, x ∈ old

/-- The map came about under the permit: all that was held is held, what was taken is marked, only
its names took registers, no later block has a name from before, and no name has two registers. -/
structure Since (m : RegisterMap) : Prop where
  holder : ∀ {r h}, p.start.holder r = some h → m.holder r = some h
  marked : ∀ {r h}, p.start.holder r = none → m.holder r = some h → m.marked r = true
  named : ∀ {r x}, p.start.holder r = none → m.holder r = some (.named x) → x ∈ p.names
  frames : p.Noted m.frames
  unique : p.start.Unique → m.Unique

/-- The register may be written: it was taken since the start, is that of a name which may be set,
or is lent. -/
def Owned (m : RegisterMap) (r : Register) : Prop :=
  p.start.holder r = none ∧ m.marked r = true ∨
    (∃ x ∈ p.assigned, p.start.holder r = some (.named x)) ∨ r ∈ p.lent

variable {p} {r : Register} {x : String}

/-- What is owned stays owned. -/
theorem Owned.mono (h : p.Owned m r) (hsteady : Steady m m') : p.Owned m' r :=
  h.imp_left fun h => ⟨h.1, hsteady.marked r h.2⟩

namespace Noted

variable {frame : List String} {frames : List (List String)}

theorem length_le (h : p.Noted frames) : p.start.frames.length ≤ frames.length := by
  obtain ⟨opened, base, rfl, hlength, -, -⟩ := h
  simp [hlength]

theorem push (h : p.Noted frames) : p.Noted ([] :: frames) := by
  obtain ⟨opened, base, rfl, hlength, hopened, hbase⟩ := h
  exact ⟨[] :: opened, base, rfl, hlength, forall_mem_cons.2 ⟨by simp, hopened⟩, hbase⟩

/-- A block above those of the start has only fresh names. -/
theorem pop (h : p.Noted (frame :: frames)) (hdepth : p.start.frames.length ≤ frames.length) :
    (∀ x ∈ frame, p.Fresh x) ∧ p.Noted frames := by
  obtain ⟨opened, base, heq, hlength, hopened, hbase⟩ := h
  cases opened with
  | nil =>
    rw [nil_append] at heq
    rw [← heq, length_cons] at hlength
    omega
  | cons top opened =>
    obtain ⟨rfl, rfl⟩ := List.cons.inj heq
    obtain ⟨htop, hopened⟩ := forall_mem_cons.1 hopened
    exact ⟨htop, opened, base, rfl, hlength, hopened, hbase⟩

theorem note (h : p.Noted frames) (hx : p.Fresh x) : p.Noted (frames.modifyHead (x :: ·)) := by
  obtain ⟨opened, base, rfl, hlength, hopened, hbase⟩ := h
  cases opened with
  | cons top opened =>
    obtain ⟨htop, hopened⟩ := forall_mem_cons.1 hopened
    exact ⟨(x :: top) :: opened, base, rfl, hlength,
      forall_mem_cons.2 ⟨forall_mem_cons.2 ⟨hx, htop⟩, hopened⟩, hbase⟩
  | nil =>
    refine ⟨[], base.modifyHead (x :: ·), rfl, by simpa using hlength, by simp, ?_⟩
    cases base with
    | nil => simp
    | cons top base =>
      obtain ⟨htop, hbase⟩ := forall_mem_cons.1 hbase
      exact forall_mem_cons.2 ⟨forall_mem_cons.2 ⟨.inl hx, htop⟩, hbase⟩

end Noted

namespace Since

/-- What is free now was free at the start. -/
theorem start_eq_none (h : p.Since m) (hr : m.holder r = none) : p.start.holder r = none := by
  cases hstart : p.start.holder r with
  | none => rfl
  | some holder =>
    rw [h.holder hstart] at hr
    cases hr

/-- The register of a name that may be set is owned. -/
theorem owned (h : p.Since m) (hr : m.holder r = some (.named x)) (hx : x ∈ p.assigned) :
    p.Owned m r := by
  cases hstart : p.start.holder r with
  | none => exact .inl ⟨hstart, h.marked hstart hr⟩
  | some holder =>
    have hholder := h.holder hstart
    rw [hr] at hholder
    cases hholder
    exact .inr (.inl ⟨x, hx, hstart⟩)

theorem take (h : p.Since m) (hr : m.holder r = none) {holder : Holder}
    (hholder : ∀ x, holder = .named x → x ∈ p.names ∧ m.lookup x = none) :
    p.Since (m.take r holder) := by
  refine ⟨fun {r' h'} hr' => ?_, fun {r' h'} hstart hr' => ?_, fun {r' x} hstart hr' => ?_,
    h.frames, fun hunique => (h.unique hunique).take r fun x hx => (hholder x hx).2⟩
  · have hne : r ≠ r' := by
      rintro rfl
      rw [h.start_eq_none hr] at hr'
      cases hr'
    rw [holder_take, if_neg hne]
    exact h.holder hr'
  · rw [holder_take] at hr'
    rw [marked_take]
    split at hr'
    · rename_i heq
      rw [if_pos heq]
    · rename_i hne
      rw [if_neg hne]
      exact h.marked hstart hr'
  · rw [holder_take] at hr'
    split at hr'
    · exact (hholder x (Option.some.inj hr')).1
    · exact h.named hstart hr'

theorem noteInFrame (h : p.Since m) (hx : p.Fresh x) : p.Since (m.noteInFrame x) := by
  refine ⟨fun {r h'} hr => ?_, fun {r h'} hstart hr => ?_, fun {r y} hstart hr => ?_, ?_,
    fun hunique => (h.unique hunique).anti fun r y hr => ?_⟩
  · rw [holder_noteInFrame]
    exact h.holder hr
  · rw [holder_noteInFrame] at hr
    exact (Steady.noteInFrame m x).marked r (h.marked hstart hr)
  · rw [holder_noteInFrame] at hr
    exact h.named hstart hr
  · rw [frames_noteInFrame]
    exact h.frames.note hx
  · rwa [holder_noteInFrame] at hr

/-- A map in which registers are freed that were free at the start. -/
theorem of_freed (h : p.Since m) (hframes : p.Noted m'.frames) (htouched : m'.touched = m.touched)
    (hholder : ∀ r, m'.holder r = m.holder r ∨ p.start.holder r = none ∧ m'.holder r = none) :
    p.Since m' := by
  refine ⟨fun {r h'} hr => ?_, fun {r h'} hstart hr => ?_, fun {r y} hstart hr => ?_, hframes,
    fun hunique => (h.unique hunique).anti fun r y hr => ?_⟩
  · rcases hholder r with heq | ⟨hnone, -⟩
    · rw [heq]
      exact h.holder hr
    · rw [hnone] at hr
      cases hr
  · rcases hholder r with heq | ⟨-, hnone⟩
    · rw [RegisterMap.marked, htouched]
      exact h.marked hstart (heq ▸ hr)
    · rw [hnone] at hr
      cases hr
  · rcases hholder r with heq | ⟨-, hnone⟩
    · exact h.named hstart (heq ▸ hr)
    · rw [hnone] at hr
      cases hr
  · rcases hholder r with heq | ⟨-, hnone⟩
    · exact heq ▸ hr
    · rw [hnone] at hr
      cases hr

theorem releaseAll (h : p.Since m) (hts : ∀ t ∈ ts, p.start.holder t = none) :
    p.Since (m.releaseAll (ts.map Fin.val)) := by
  refine h.of_freed (by rw [frames_releaseAll]; exact h.frames) (touched_releaseAll ..) fun r => ?_
  by_cases hr : r ∈ ts ∧ m.holder r = some .temporary
  · exact .inr ⟨hts r hr.1, holder_releaseAll_of_mem hr.1 hr.2⟩
  · exact .inl (holder_releaseAll_of_not hr)

/-- Opening a block keeps to the permit. -/
theorem pushScope (h : p.Since m) : p.Since m.pushScope :=
  ⟨h.holder, h.marked, h.named, h.frames.push, h.unique⟩

/-- A block opened since the start frees only fresh names. -/
theorem popScope (h : p.Since m) (hdepth : p.start.frames.length < m.frames.length) :
    p.Since m.popScope := by
  cases hm : m.frames with
  | nil =>
    rw [RegisterMap.popScope, hm]
    exact h
  | cons frame outer =>
    rw [hm] at hdepth
    obtain ⟨hfresh, houter⟩ := (hm ▸ h.frames : p.Noted (frame :: outer)).pop
      (Nat.le_of_lt_succ hdepth)
    have hpop : m.popScope = frame.foldl unbind { m with frames := outer } := by
      rw [RegisterMap.popScope, hm]
    refine h.of_freed ?_ (touched_popScope m) fun r => ?_
    · rw [hpop, frames_foldl_unbind]
      exact houter
    · rw [hpop]
      refine (holder_foldl_unbind frame { m with frames := outer } r).imp_right ?_
      rintro ⟨⟨x, hx, hr⟩, hnone⟩
      refine ⟨?_, hnone⟩
      cases hstart : p.start.holder r with
      | none => rfl
      | some holder =>
        -- a register held at the start is that of no name noted in the block
        obtain rfl : Holder.named x = holder := Option.some.inj (hr.symm.trans (h.holder hstart))
        exact (hfresh x hx r hstart).elim

end Since

/-! ## Computations under a permit -/

/-- Under the permit, from states with `I` in which the registers `P` are owned, the computation
leads to states with `J`, its result has the property `φ`, and the registers `Q` are owned. The
register map is a part of the state. -/
def Obeys {σ α : Type} (p : Permit) (view : σ → RegisterMap) (I J : σ → Prop)
    (P : Register → Prop) (x : StateT σ (Except AssembleError) α) (φ : α → Prop)
    (Q : α → Register → Prop) : Prop :=
  ∀ s a s', I s → p.Since (view s) → (∀ r, P r → p.Owned (view s) r) → x s = .ok (a, s') →
    J s' ∧ p.Since (view s') ∧ Steady (view s) (view s') ∧ φ a ∧ ∀ r, Q a r → p.Owned (view s') r

namespace Obeys

variable {σ α β : Type} {view : σ → RegisterMap} {I J K : σ → Prop} {P P' : Register → Prop}
variable {x : StateT σ (Except AssembleError) α} {f : α → StateT σ (Except AssembleError) β}
variable {φ φ' : α → Prop} {ψ : β → Prop} {Q Q' : α → Register → Prop} {R : β → Register → Prop}

/-- What is owned stays owned. -/
theorem bind (hx : p.Obeys view I J P x φ Q)
    (hf : ∀ a, φ a → p.Obeys view J K (fun r => P r ∨ Q a r) (f a) ψ R) :
    p.Obeys view I K P (x >>= f) ψ R := by
  intro s b s'' hI hs hP h
  obtain ⟨a, s', ha, hb⟩ := run_bind_eq_ok.1 h
  obtain ⟨hJ, hs', hsteady, hφ, hQ⟩ := hx s a s' hI hs hP ha
  obtain ⟨hK, hs'', hsteady', hψ, hR⟩ := hf a hφ s' b s'' hJ hs'
    (fun r hr => hr.elim (fun hr => (hP r hr).mono hsteady) (hQ r)) hb
  exact ⟨hK, hs'', hsteady.trans hsteady', hψ, hR⟩

/-- A value obeys where its registers are owned already. -/
theorem pure {a : α} (hφ : φ a) (hQ : ∀ r, Q a r → P r) :
    p.Obeys view I I P (pure a : StateT σ (Except AssembleError) α) φ Q := by
  rintro s b s' hI hs hP ⟨⟩
  exact ⟨hI, hs, .refl _, hφ, fun r hr => hP r (hQ r hr)⟩

theorem throw (e : AssembleError) :
    p.Obeys view I J P (throw e : StateT σ (Except AssembleError) α) φ Q := by
  rintro s b s' hI hs hP ⟨⟩

/-- More owned before, less asked after. -/
theorem mono (h : p.Obeys view I J P x φ Q) (hP : ∀ r, P r → P' r) (hφ : ∀ a, φ a → φ' a)
    (hQ : ∀ a, φ a → ∀ r, Q' a r → Q a r) : p.Obeys view I J P' x φ' Q' := by
  intro s a s' hI hs hP' ha
  obtain ⟨hJ, hs', hsteady, hφa, hQa⟩ := h s a s' hI hs (fun r hr => hP' r (hP r hr)) ha
  exact ⟨hJ, hs', hsteady, hφ a hφa, fun r hr => hQa r (hQ a hφa r hr)⟩

end Obeys

/-- A request to the register map under a permit. -/
abbrev Owns {α : Type} (p : Permit) (P : Register → Prop) (x : Allocation α) (φ : α → Prop)
    (Q : α → Register → Prop) : Prop :=
  p.Obeys id (fun _ => True) (fun _ => True) P x φ Q

/-- A step of drafting under a permit, from one scope to another. -/
abbrev OwnsIn {α : Type} (p : Permit) (s s' : Option Scope) (P : Register → Prop) (x : Drafting α)
    (φ : α → Prop) (Q : α → Register → Prop) : Prop :=
  p.Obeys Bindings.registers (·.scope = s) (·.scope = s') P x φ Q

/-! ## Requests -/

variable {P : Register → Prop}

/-- A temporary is owned, and it was free at the start. -/
theorem owns_temp : p.Owns P temp (fun t => p.start.holder t = none) fun t r => t = r := by
  intro m t m' _ hm _ ht
  obtain ⟨hfree, rfl⟩ := temp_eq_ok ht
  have hstart := hm.start_eq_none hfree
  refine ⟨trivial, hm.take hfree nofun, Steady.take .., hstart, ?_⟩
  rintro r rfl
  exact .inl ⟨hstart, by rw [id, marked_take, if_pos rfl]⟩

/-- Temporaries may always be given back. -/
theorem owns_release (hts : ∀ t ∈ ts, p.start.holder t = none) :
    p.Owns P (release ts) (fun _ => True) fun _ _ => False := by
  rintro m a m' - hm - ⟨⟩
  exact ⟨trivial, hm.releaseAll hts, .releaseAll .., trivial, nofun⟩

/-- A name of the permit may take a register, and owns it if it may be set. -/
theorem owns_bindGlobal (hx : x ∈ p.names) :
    p.Owns P (bindGlobal x) (fun _ => True) fun b r => b.register = r ∧ x ∈ p.assigned := by
  intro m b m' _ hm _ hb
  rcases bindGlobal_cases hb with ⟨hholder, rfl, -⟩ | ⟨hlookup, hfree, rfl, -⟩
  · refine ⟨trivial, hm, .refl _, trivial, ?_⟩
    rintro r ⟨rfl, hassigned⟩
    exact hm.owned hholder hassigned
  · have hm' : p.Since (m.take b.register (.named x)) :=
      hm.take hfree (by rintro y ⟨⟩; exact ⟨hx, hlookup⟩)
    refine ⟨trivial, hm', .take .., trivial, ?_⟩
    rintro r ⟨rfl, hassigned⟩
    exact hm'.owned (by rw [holder_take, if_pos rfl]) hassigned

/-- A name that takes a register in a block was not there at the start. -/
theorem Since.bind (hm : p.Since m) (hx : x ∈ p.names) {b : Binding}
    (hb : RegisterMap.bind x m = .ok (b, m')) :
    p.Since m' ∧ Steady m m' ∧ m'.holder b.register = some (.named x) ∧
      (m.lookup x = none → p.Owned m' b.register) := by
  rcases bind_cases hb with ⟨hholder, rfl⟩ | ⟨hlookup, hfree, rfl⟩
  · refine ⟨hm, .refl _, hholder, fun hnone => ?_⟩
    obtain ⟨r, hr⟩ := exists_lookup_of_holder hholder
    rw [hnone] at hr
    cases hr
  · have htaken : p.Since (m.take b.register (.named x)) :=
      hm.take hfree (by rintro y ⟨⟩; exact ⟨hx, hlookup⟩)
    have hsteady := (Steady.take m b.register (.named x)).trans (.noteInFrame _ x)
    have hmarked : ((m.take b.register (.named x)).noteInFrame x).marked b.register = true :=
      (Steady.noteInFrame _ x).marked _ (by rw [marked_take, if_pos rfl])
    refine ⟨htaken.noteInFrame fun r hr => ?_, hsteady, ?_,
      fun _ => .inl ⟨hm.start_eq_none hfree, hmarked⟩⟩
    · obtain ⟨r', hr'⟩ := exists_lookup_of_holder (hm.holder hr)
      rw [hlookup] at hr'
      cases hr'
    · rw [holder_noteInFrame, holder_take, if_pos rfl]

theorem owns_bind (hx : x ∈ p.names) :
    p.Owns P (RegisterMap.bind x) (fun _ => True) fun b r => b.register = r ∧ x ∈ p.assigned := by
  intro m b m' _ hm _ hb
  obtain ⟨hm', hsteady, hholder, -⟩ := hm.bind hx hb
  refine ⟨trivial, hm', hsteady, trivial, ?_⟩
  rintro r ⟨rfl, hassigned⟩
  exact hm'.owned hholder hassigned

/-! ## Operands -/

/-- The permit has the names that code mentions and those that it sets. -/
def Grants (p : Permit) (mentioned set : List String) : Prop :=
  mentioned ⊆ p.names ∧ set ⊆ p.assigned

theorem grants_append {ms ms' ss ss' : List String} :
    p.Grants (ms ++ ms') (ss ++ ss') ↔ p.Grants ms ss ∧ p.Grants ms' ss' := by
  simp only [Grants, append_subset]
  exact and_and_and_comm

/-- The permit has all that an operand mentions and sets. -/
def Admits (p : Permit) (signatures : Signatures) (scope : Option Scope) (e : Operand) : Prop :=
  p.Grants (e.mentions signatures scope) (e.assigns signatures)

section Admits

variable {signatures : Signatures} {scope : Option Scope}

/-- A permit admits an operand by its reads and calls. -/
theorem admits_iff {e : Operand} : p.Admits signatures scope e ↔
    (∀ y ∈ e.reads, keyIn scope y ∈ p.names) ∧
      ∀ c ∈ e.calls, returnName ∈ p.names ∧ parameterKeys signatures c ⊆ p.names ∧
        parameterKeys signatures c ⊆ p.assigned := by
  simp only [Admits, Grants, Operand.mentions, Operand.assigns, subset_def, mem_append,
    mem_map, mem_flatMap, mem_cons]
  constructor
  · rintro ⟨hnames, hassigned⟩
    refine ⟨fun y hy => hnames (.inl ⟨y, hy, rfl⟩), fun c hc => ⟨hnames (.inr ⟨c, hc, .inl rfl⟩),
      fun hy => hnames (.inr ⟨c, hc, .inr hy⟩), fun hy => hassigned ⟨c, hc, hy⟩⟩⟩
  · rintro ⟨hreads, hcalls⟩
    refine ⟨?_, ?_⟩
    · rintro y (⟨z, hz, rfl⟩ | ⟨c, hc, rfl | hy⟩)
      · exact hreads z hz
      · exact (hcalls c hc).1
      · exact (hcalls c hc).2.1 hy
    · rintro y ⟨c, hc, hy⟩
      exact (hcalls c hc).2.2 hy

/-- A permit for an operand is one for its parts. -/
theorem Admits.of_subset {e e' : Operand} (h : p.Admits signatures scope e)
    (hreads : e'.reads ⊆ e.reads) (hcalls : e'.calls ⊆ e.calls) : p.Admits signatures scope e' := by
  rw [admits_iff] at h ⊢
  exact ⟨fun y hy => h.1 y (hreads hy), fun c hc => h.2 c (hcalls hc)⟩

/-- The sides of an admitted operator are admitted. -/
theorem Admits.sides {e l r : Operand} (h : p.Admits signatures scope e)
    (hreads : e.reads = l.reads ++ r.reads) (hcalls : e.calls = l.calls ++ r.calls) :
    p.Admits signatures scope l ∧ p.Admits signatures scope r := by
  refine ⟨h.of_subset ?_ ?_, h.of_subset ?_ ?_⟩ <;> simp [hreads, hcalls]

/-- The arguments of an admitted call are admitted. -/
theorem Admits.args {args : List Operand} (h : p.Admits signatures scope (.call callee args)) :
    ∀ a ∈ args, p.Admits signatures scope a := by
  intro a ha
  obtain ⟨hreads, hcalls⟩ := Operand.subset_all_of_mem ha
  exact h.of_subset hreads fun c hc => mem_cons_of_mem _ (hcalls hc)

end Admits

/-- The load writes registers that are owned, if it is for one that is. -/
def LoadOwns (p : Permit) (load : Load) : Prop :=
  ∀ (P : Register → Prop) dst, P dst →
    p.Owns P (load dst) (fun _ => True) fun code => Sets (Piece.all code)

variable {env : Environment}

/-- Reading a variable clears at most its own register. -/
theorem owns_readVariable {name : String} (h : env.key name ∈ p.names) :
    p.Owns P (readVariable env name) (fun _ => True) fun r => Sets (Piece.all r.2) := by
  intro m a m' _ hm _ ha
  obtain ⟨_, _, ⟨⟩, ha⟩ := run_bind_eq_ok.1 ha
  cases hlookup : m.lookup (env.key name) with
  | some r =>
    rw [hlookup] at ha
    cases ha
    exact ⟨trivial, hm, .refl _, trivial, by simp [Piece.all]⟩
  | none =>
    -- a name without a register takes one, which the top-level code then clears
    rw [hlookup] at ha
    obtain ⟨b, m₁, hb, ⟨⟩⟩ := run_bind_eq_ok.1 ha
    obtain ⟨hm', hsteady, -, howned⟩ := hm.bind h hb
    refine ⟨trivial, hm', hsteady, trivial, fun r hr => ?_⟩
    have hr : b.register = r := by
      dsimp only at hr
      split at hr
      · simpa using hr
      · simp [Piece.all] at hr
    exact hr ▸ howned hlookup

/-- The temporary of an operand was free at the start. -/
theorem owns_viaTemporary {load : Load} (h : p.LoadOwns load) :
    p.Owns P (viaTemporary load)
      (fun f => p.start.holder f.place = none ∧ ∀ t ∈ f.temporaries, p.start.holder t = none)
      fun f r => Sets (Piece.all f.code) r ∨ f.place = r := by
  refine owns_temp.bind fun t ht => (h _ t (.inr rfl)).bind fun code _ => Obeys.pure ?_ ?_
  · exact ⟨ht, by simpa using ht⟩
  · rintro r (hr | rfl)
    · exact .inr hr
    · exact .inl (.inr rfl)

/-- An operand in a register sets owned registers only. -/
theorem owns_fetchRegister {e : Operand} {load : Load}
    (he : p.Admits env.signatures env.scope e) (h : p.LoadOwns load) :
    p.Owns P (fetchRegister env e load) (fun f => ∀ t ∈ f.temporaries, p.start.holder t = none)
      fun f => Sets (Piece.all f.code) := by
  unfold fetchRegister
  split
  · rename_i name
    have hkey := (admits_iff.1 he).1 name (mem_singleton_self name)
    exact (owns_readVariable hkey).bind fun r _ => Obeys.pure (by simp) fun _ hr => .inr hr
  · exact (owns_viaTemporary h).mono (fun _ => id) (fun _ hf => hf.2) fun _ _ _ hr => .inl hr

/-- An operand fetched for use sets owned registers only. -/
theorem owns_fetch {e : Operand} {load : Load} (he : p.Admits env.signatures env.scope e)
    (h : p.LoadOwns load) :
    p.Owns P (fetch env e load) (fun f => ∀ t ∈ f.temporaries, p.start.holder t = none)
      fun f => Sets (Piece.all f.code) := by
  unfold fetch
  split
  · exact Obeys.pure (by simp) (by simp [Piece.all])
  · exact (owns_fetchRegister he h).bind fun f hf => Obeys.pure hf fun _ hr => .inr hr

section Operators

variable {a b : Source}

theorem owns_compareLess (hdst : P dst) :
    p.Owns P (compareLess dst a b) (fun _ => True) fun is => Sets is := by
  refine owns_temp.bind fun e he => owns_temp.bind fun t ht =>
    (owns_release (by simp [he, ht])).bind fun _ _ => Obeys.pure trivial fun r hr => ?_
  rcases eq_of_sets_lessThan hr with rfl | rfl | rfl
  · exact .inl (.inl (.inl hdst))
  · exact .inl (.inl (.inr rfl))
  · exact .inl (.inr rfl)

theorem owns_compareNot (hdst : P dst) :
    p.Owns P (compareNot dst a b) (fun _ => True) fun is => Sets is := by
  refine owns_temp.bind fun q hq => (owns_compareLess (.inr rfl)).bind fun code _ =>
    (owns_release (by simp [hq])).bind fun _ _ => Obeys.pure trivial fun r hr => ?_
  rcases sets_append.1 hr with hr | hr
  · exact .inl (.inr hr)
  · obtain rfl : dst = r := by simpa using hr
    exact .inl (.inl (.inl hdst))

theorem owns_compareEqual (hdst : P dst) (same differ : UInt8) :
    p.Owns P (compareEqual dst a b same differ) (fun _ => True) fun is => Sets is := by
  refine owns_temp.bind fun d hd => (owns_release (by simp [hd])).bind fun _ _ =>
    Obeys.pure trivial fun r hr => ?_
  rcases sets_cons.1 hr with hr | hr
  · exact .inl (.inr (by simpa using hr))
  · exact .inl (.inl (eq_of_sets_choose hr ▸ hdst))

/-- An operator sets its destination and temporaries. -/
theorem owns_operate (op : BinaryOp) (hdst : P dst) :
    p.Owns P (operate op dst a b) (fun _ => True) fun is => Sets is := by
  cases op with
  | add | sub | mul | div =>
    refine Obeys.pure trivial fun r hr => ?_
    obtain rfl : dst = r := by simpa using hr
    exact hdst
  | mod =>
    refine owns_temp.bind fun q hq => (owns_release (by simp [hq])).bind fun _ _ =>
      Obeys.pure trivial fun r hr => ?_
    have hr : q = r ∨ dst = r := by simpa [remainder] using hr
    rcases hr with rfl | rfl
    · exact .inl (.inr rfl)
    · exact .inl (.inl hdst)
  | lt | gt => exact owns_compareLess hdst
  | ltEq | gtEq => exact owns_compareNot hdst
  | eq | notEq => exact owns_compareEqual hdst _ _

end Operators

/-! ## Calls -/

/-- Arguments in temporaries set owned registers only. -/
theorem owns_loadTemporaries {args : List Load} (h : ∀ load ∈ args, p.LoadOwns load) :
    p.Owns P (loadTemporaries args) (fun fs => ∀ f ∈ fs, p.start.holder f.place = none)
      fun fs => Sets (Piece.all (fs.flatMap (·.code))) := by
  induction args generalizing P with
  | nil => exact Obeys.pure (by simp) (by simp [Piece.all])
  | cons load rest ih =>
    obtain ⟨hload, hrest⟩ := forall_mem_cons.1 h
    refine (owns_viaTemporary hload).bind fun f hf => (ih hrest).bind fun fs hfs =>
      Obeys.pure (forall_mem_cons.2 ⟨hf.1, hfs⟩) fun r hr => ?_
    rw [flatMap_cons, Piece.all_append, sets_append] at hr
    rcases hr with hr | hr
    · exact .inl (.inr (.inl hr))
    · exact .inr hr

theorem owns_loadArguments {targets : List Register} {args : List Load}
    (htargets : ∀ t ∈ targets, P t) (h : ∀ load ∈ args, p.LoadOwns load) :
    p.Owns P (loadArguments targets args) (fun _ => True) fun code => Sets (Piece.all code) := by
  unfold loadArguments
  split
  · -- one argument goes to its parameter at once
    exact h _ (mem_singleton_self _) P _ (htargets _ (mem_singleton_self _))
  · refine (owns_loadTemporaries h).bind fun fs hfs =>
      (owns_release (by simpa using hfs)).bind fun _ _ => Obeys.pure trivial fun r hr => ?_
    rw [Piece.all_append, Piece.all_plain, sets_append] at hr
    rcases hr with hr | ⟨i, hi, hr⟩
    · exact .inl (.inr hr)
    · rw [← map_uncurry_zip_eq_zipWith] at hi
      obtain ⟨⟨target, f⟩, hzip, rfl⟩ := mem_map.1 hi
      obtain rfl : target = r := by simpa using hr
      exact .inl (.inl (htargets target (of_mem_zip hzip).1))

/-- The registers of parameters may be set. -/
theorem owns_parameterRegisters {function : String} {params : List String}
    (hnames : params.map (qualified function) ⊆ p.names)
    (hassigned : params.map (qualified function) ⊆ p.assigned) :
    p.Owns P (parameterRegisters function params) (fun _ => True) fun rs r => r ∈ rs := by
  induction params generalizing P with
  | nil => exact Obeys.pure trivial (by simp)
  | cons param rest ih =>
    rw [map_cons, cons_subset] at hnames hassigned
    refine (owns_bindGlobal hnames.1).bind fun b _ => (ih hnames.2 hassigned.2).bind fun rs _ =>
      Obeys.pure trivial fun r hr => ?_
    rcases mem_cons.1 hr with rfl | hr
    · exact .inl (.inr ⟨rfl, hassigned.1⟩)
    · exact .inr hr

theorem owns_callPiece (callee : String) :
    p.Owns P (liftM (callPiece env callee) : Allocation Piece)
      (fun piece => piece.instruction.target? = none) fun _ _ => False := by
  intro m piece m' _ hm _ h
  obtain ⟨_, hpiece, ⟨⟩⟩ := bind_eq_ok.1 h
  refine ⟨trivial, hm, .refl _, ?_, nofun⟩
  unfold callPiece at hpiece
  split at hpiece
  · cases hpiece
    rfl
  · split at hpiece
    · cases hpiece
    · cases hpiece
      rfl

/-- A call sets temporaries and its parameters. -/
theorem owns_callCode {args : List Load} (hnames : parameterKeys env.signatures callee ⊆ p.names)
    (hassigned : parameterKeys env.signatures callee ⊆ p.assigned)
    (h : ∀ load ∈ args, p.LoadOwns load) :
    p.Owns P (callCode env callee args) (fun _ => True) fun code => Sets (Piece.all code) := by
  have hpassing (passing : List Piece) {P : Register → Prop} :
      p.Owns (fun r => P r ∨ Sets (Piece.all passing) r)
        (do return passing ++ [← liftM (callPiece env callee)] : Allocation (List Piece))
        (fun _ => True) fun code => Sets (Piece.all code) := by
    refine (owns_callPiece callee).bind fun piece hpiece => Obeys.pure trivial fun r hr => ?_
    have hr : Sets (Piece.all passing) r := by simpa [Piece.all, hpiece] using hr
    exact .inl (.inr hr)
  unfold callCode
  dsimp only
  split
  · exact Obeys.bind (φ := fun _ => True) (Obeys.pure trivial (by simp [Piece.all]))
      fun passing _ => hpassing passing
  · rename_i params hparams
    rw [parameterKeys, hparams] at hnames hassigned
    split
    · exact (owns_parameterRegisters hnames hassigned).bind fun targets _ =>
        (owns_loadArguments (fun t ht => .inr ht) h).bind fun passing _ => hpassing passing
    · exact Obeys.bind (φ := fun _ => True) (Obeys.throw _) fun passing _ => hpassing passing

/-! ## Operands as a whole -/

/-- **Loading an operand writes only registers that are owned.** -/
theorem owns_load (e : Operand) (he : p.Admits env.signatures env.scope e) :
    p.LoadOwns (load env e) := by
  -- what a load sets is its target or was set by the code of an operand
  induction e with
  | number n =>
    intro P dst hdst
    unfold load
    split
    · refine Obeys.pure trivial fun r hr => ?_
      rw [Piece.all_plain] at hr
      exact eq_of_sets_loadConstant _ hr ▸ hdst
    · exact Obeys.throw _
  | text s => exact fun _ _ _ => Obeys.throw _
  | var name =>
    intro P dst hdst
    have hkey := (admits_iff.1 he).1 name (mem_singleton_self name)
    refine (owns_readVariable hkey).bind fun r _ => Obeys.pure trivial fun r' hr => ?_
    rw [Piece.all_append, Piece.all_plain, sets_append] at hr
    rcases hr with hr | hr
    · exact .inr hr
    · obtain rfl : dst = r' := by simpa using hr
      exact .inl hdst
  | binary op lhs rhs ihlhs ihrhs =>
    intro P dst hdst
    obtain ⟨hlhs, hrhs⟩ := he.sides rfl rfl
    refine (owns_fetch hlhs (ihlhs hlhs)).bind fun a ha =>
      (owns_fetch hrhs (ihrhs hrhs)).bind fun b hb =>
        (owns_operate op (.inl (.inl hdst))).bind fun code _ =>
          (owns_release ?_).bind fun _ _ => Obeys.pure trivial fun r hr => ?_
    · exact forall_mem_append.2 ⟨ha, hb⟩
    · simp only [Piece.all_append, Piece.all_plain, sets_append] at hr
      rcases hr with (hr | hr) | hr
      · exact .inl (.inl (.inl (.inr hr)))
      · exact .inl (.inl (.inr hr))
      · exact .inl (.inr hr)
  | unary op operand ih =>
    intro P dst hdst
    cases op with
    | neg =>
      have hoperand : p.Admits env.signatures env.scope operand := he
      refine (owns_fetch hoperand (ih hoperand)).bind fun a ha =>
        (owns_release ha).bind fun _ _ => Obeys.pure trivial fun r hr => ?_
      rw [Piece.all_append, Piece.all_plain, sets_append] at hr
      rcases hr with hr | hr
      · exact .inl (.inr hr)
      · obtain rfl : dst = r := by simpa using hr
        exact .inl (.inl hdst)
    | not =>
      refine (owns_viaTemporary (ih he)).bind fun a ha =>
        (owns_release ha.2).bind fun _ _ => Obeys.pure trivial fun r hr => ?_
      rw [Piece.all_append, Piece.all_plain, sets_append] at hr
      rcases hr with hr | hr
      · exact .inl (.inr (.inl hr))
      · exact .inl (.inl (eq_of_sets_choose hr ▸ hdst))
  | logical op lhs rhs ihlhs ihrhs =>
    intro P dst hdst
    obtain ⟨hlhs, hrhs⟩ := he.sides rfl rfl
    refine (owns_viaTemporary (ihlhs hlhs)).bind fun a ha =>
      (owns_viaTemporary (ihrhs hrhs)).bind fun b hb =>
        (owns_release ?_).bind fun _ _ => Obeys.pure trivial fun r hr => ?_
    · exact forall_mem_append.2 ⟨ha.2, hb.2⟩
    · simp only [Piece.all_append, Piece.all_plain, sets_append] at hr
      rcases hr with (hr | hr) | hr
      · exact .inl (.inl (.inr (.inl hr)))
      · exact .inl (.inr (.inl hr))
      · exact .inl (.inl (.inl (eq_of_sets_combine hr ▸ hdst)))
  | call callee args ih =>
    intro P dst hdst
    obtain ⟨hret, hnames, hassigned⟩ := (admits_iff.1 he).2 callee (mem_cons_self ..)
    have hloads := forall_mem_loads.2 fun a ha => ih a ha (he.args a ha)
    refine (owns_callCode hnames hassigned hloads).bind fun code _ =>
      (owns_bindGlobal hret).bind fun b _ => Obeys.pure trivial fun r hr => ?_
    rw [Piece.all_append, Piece.all_plain, sets_append] at hr
    rcases hr with hr | hr
    · exact .inl (.inr hr)
    · obtain rfl : dst = r := by simpa using hr
      exact .inl (.inl hdst)

/-- The loads of admitted arguments. -/
theorem owns_loads (args : List Operand) (h : ∀ a ∈ args, p.Admits env.signatures env.scope a) :
    ∀ load ∈ loads env args, p.LoadOwns load :=
  forall_mem_loads.2 fun a ha => owns_load a (h a ha)

end Permit

end ImpMachine
