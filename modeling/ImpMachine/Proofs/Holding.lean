import ImpMachine.Proofs.Drafting

/-!
# Who holds which register

What requests to the register map leave alone. Evaluating an operand only borrows free registers as
temporaries (`Borrows`) and gives them back. A whole body may also bind names, but everything held
before stays where it was (`Extends`): a block frees only the names that were first bound in it.
-/

namespace ImpMachine.RegisterMap

open List

variable {m m' m'' : RegisterMap} {x : String} {r t : Register} {ts : List Register}

/-! ## Looking -/

/-- What holds a register. -/
def holder (m : RegisterMap) (r : Register) : Option Holder :=
  getElem m.holders r r.isLt

theorem holder_of_lookup (h : m.lookup x = some r) : m.holder r = some (.named x) := by
  have hfound := List.find?_some h
  exact beq_iff_eq.1 hfound

theorem exists_lookup_of_holder (h : m.holder r = some (.named x)) :
    ∃ r', m.lookup x = some r' := by
  refine Option.isSome_iff_exists.1 (List.find?_isSome.2 ⟨r, mem_finRange r, ?_⟩)
  exact beq_iff_eq.2 h

theorem free_of_firstFree? (h : m.firstFree? = some r) : m.holder r = none := by
  have hfound := List.find?_some h
  exact Option.isNone_iff_eq_none.1 hfound

/-- The register of a name depends on the names alone. -/
theorem lookup_congr (h : ∀ r, m'.holder r = some (.named x) ↔ m.holder r = some (.named x)) :
    m'.lookup x = m.lookup x := by
  unfold lookup find?
  congr 1
  funext r
  rw [Bool.eq_iff_iff, beq_iff_eq, beq_iff_eq]
  exact h r

/-- No name has two registers. -/
def Unique (m : RegisterMap) : Prop :=
  ∀ r r' x, m.holder r = some (.named x) → m.holder r' = some (.named x) → r = r'

theorem unique_empty : empty.Unique := by
  intro r r' x h
  simp [holder, empty] at h

/-- A name with one register is found there. -/
theorem Unique.lookup (hunique : m.Unique) (h : m.holder r = some (.named x)) :
    m.lookup x = some r := by
  obtain ⟨r', hr'⟩ := exists_lookup_of_holder h
  rw [hr', hunique r' r x (holder_of_lookup hr') h]

/-- Fewer names are still unique. -/
theorem Unique.anti (hunique : m.Unique)
    (h : ∀ r x, m'.holder r = some (.named x) → m.holder r = some (.named x)) : m'.Unique :=
  fun r r' x hr hr' => hunique r r' x (h r x hr) (h r' x hr')

/-! ## Taking and freeing -/

/-- Taking a register changes its holder alone. -/
theorem holder_take (m : RegisterMap) (r r' : Register) (holder : Holder) :
    (m.take r holder).holder r' = if r = r' then some holder else m.holder r' := by
  simp [RegisterMap.holder, take, Vector.getElem_set, Fin.ext_iff]

/-- A name that takes a register has no other one. -/
theorem Unique.take (hunique : m.Unique) (r : Register) {holder : Holder}
    (hholder : ∀ x, holder = .named x → m.lookup x = none) : (m.take r holder).Unique := by
  -- a second register of the name would have been found
  have hother {r' : Register} {x : String} (hr' : m.holder r' = some (.named x)) :
      some holder ≠ some (.named x) := by
    intro heq
    obtain ⟨r'', hr''⟩ := exists_lookup_of_holder hr'
    rw [hholder x (Option.some.inj heq)] at hr''
    cases hr''
  intro r₁ r₂ x hr₁ hr₂
  rw [holder_take] at hr₁ hr₂
  split at hr₁ <;> split at hr₂
  · rename_i heq₁ heq₂
    exact heq₁.symm.trans heq₂
  · exact (hother hr₂ hr₁).elim
  · exact (hother hr₁ hr₂).elim
  · exact hunique r₁ r₂ x hr₁ hr₂

theorem holder_free (m : RegisterMap) (r r' : Register) :
    (m.free r).holder r' = if r = r' then none else m.holder r' := by
  simp [holder, free, Vector.getElem_set, Fin.ext_iff]

theorem holder_release (m : RegisterMap) (t r : Register) :
    (m.release t.val).holder r =
      if t = r ∧ m.holder r = some .temporary then none else m.holder r := by
  unfold release
  rw [dif_pos t.isLt]
  split
  · rename_i ht
    rw [holder_free]
    by_cases heq : t = r
    · subst heq
      have ht : m.holder t = some .temporary := ht
      simp [ht]
    · simp [heq]
  · rename_i ht
    have ht : ¬(t = r ∧ m.holder r = some .temporary) := by
      rintro ⟨rfl, h⟩
      exact ht h
    rw [if_neg ht]

theorem frames_release (m : RegisterMap) (number : Nat) : (m.release number).frames = m.frames := by
  unfold release
  split
  · split <;> rfl
  · rfl

/-- What is not given back stays. -/
theorem holder_releaseAll_of_not (h : ¬(r ∈ ts ∧ m.holder r = some .temporary)) :
    (m.releaseAll (ts.map Fin.val)).holder r = m.holder r := by
  induction ts generalizing m with
  | nil => rfl
  | cons t ts ih =>
    have hkept : (m.release t.val).holder r = m.holder r := by
      rw [holder_release, if_neg]
      rintro ⟨rfl, htemporary⟩
      exact h ⟨mem_cons_self .., htemporary⟩
    change ((m.release t.val).releaseAll (ts.map Fin.val)).holder r = m.holder r
    rw [ih, hkept]
    rw [hkept]
    exact fun hr => h ⟨mem_cons_of_mem _ hr.1, hr.2⟩

/-- Temporaries that are given back are free. -/
theorem holder_releaseAll_of_mem (h : r ∈ ts) (htemporary : m.holder r = some .temporary) :
    (m.releaseAll (ts.map Fin.val)).holder r = none := by
  induction ts generalizing m with
  | nil => cases h
  | cons t ts ih =>
    change ((m.release t.val).releaseAll (ts.map Fin.val)).holder r = none
    have hholder := holder_release m t r
    by_cases ht : t = r
    · rw [if_pos ⟨ht, htemporary⟩] at hholder
      rw [holder_releaseAll_of_not, hholder]
      simp [hholder]
    · rw [if_neg fun h => ht h.1] at hholder
      have hr : r ∈ ts := (mem_cons.1 h).resolve_left fun h => ht h.symm
      exact ih hr (hholder.trans htemporary)

theorem frames_releaseAll (m : RegisterMap) (numbers : List Nat) :
    (m.releaseAll numbers).frames = m.frames := by
  induction numbers generalizing m with
  | nil => rfl
  | cons n ns ih => exact (ih _).trans (m.frames_release n)

/-- A temporary is a register that was free. -/
theorem temp_eq_ok (h : temp m = .ok (t, m')) : m.holder t = none ∧ m' = m.take t .temporary := by
  unfold temp occupy at h
  split at h
  · rename_i hfree
    cases h
    exact ⟨free_of_firstFree? hfree, rfl⟩
  · cases h

/-! ## Borrowing -/

/-- The second map has the registers as temporaries, free in the first, and is the first
otherwise. -/
structure Borrows (ts : List Register) (m m' : RegisterMap) : Prop where
  frames : m'.frames = m.frames
  free : ∀ t ∈ ts, m.holder t = none
  taken : ∀ t ∈ ts, m'.holder t = some .temporary
  other : ∀ r ∉ ts, m'.holder r = m.holder r

namespace Borrows

variable {us : List Register}

theorem refl (m : RegisterMap) : Borrows [] m m :=
  ⟨rfl, by simp, by simp, fun _ _ => rfl⟩

/-- A new temporary is borrowed. -/
theorem of_temp (h : temp m = .ok (t, m')) : Borrows [t] m m' := by
  obtain ⟨hfree, rfl⟩ := temp_eq_ok h
  refine ⟨rfl, ?_, ?_, ?_⟩
  · simpa using hfree
  · simp [holder_take]
  · intro r hr
    have hne : t ≠ r := fun heq => hr (mem_singleton.2 heq.symm)
    rw [holder_take, if_neg hne]

/-- Borrowing twice. -/
theorem trans (h : Borrows ts m m') (h' : Borrows us m' m'') : Borrows (ts ++ us) m m'' := by
  -- what was taken is not free any more
  have hdisjoint : ∀ r ∈ ts, r ∉ us := by
    intro r hr hr'
    have htaken := h.taken r hr
    rw [h'.free r hr'] at htaken
    cases htaken
  refine ⟨h'.frames.trans h.frames, fun r hr => ?_, fun r hr => ?_, fun r hr => ?_⟩
  · rcases mem_append.1 hr with hr | hr
    · exact h.free r hr
    · rw [← h.other r fun hr' => hdisjoint r hr' hr]
      exact h'.free r hr
  · rcases mem_append.1 hr with hr | hr
    · rw [h'.other r (hdisjoint r hr)]
      exact h.taken r hr
    · exact h'.taken r hr
  · have hnot : r ∉ ts ∧ r ∉ us := by simpa using hr
    rw [h'.other r hnot.2, h.other r hnot.1]

/-- Giving back all that was borrowed. -/
theorem releaseAll (h : Borrows ts m m') : Borrows [] m (m'.releaseAll (ts.map Fin.val)) := by
  refine ⟨(frames_releaseAll ..).trans h.frames, by simp, by simp, fun r _ => ?_⟩
  by_cases hr : r ∈ ts
  · rw [holder_releaseAll_of_mem hr (h.taken r hr), h.free r hr]
  · rw [holder_releaseAll_of_not fun hr' => hr hr'.1, h.other r hr]

/-- Holders are not disturbed. -/
theorem holder (h : Borrows ts m m') {holder : Holder} (hr : m.holder r = some holder) :
    m'.holder r = some holder := by
  by_cases hmem : r ∈ ts
  · rw [h.free r hmem] at hr
    cases hr
  · rw [h.other r hmem, hr]

theorem holder_named_iff (h : Borrows ts m m') :
    m'.holder r = some (.named x) ↔ m.holder r = some (.named x) := by
  refine ⟨fun hr => ?_, h.holder⟩
  by_cases hmem : r ∈ ts
  · rw [h.taken r hmem] at hr
    cases hr
  · rwa [h.other r hmem] at hr

/-- Borrowing moves no name. -/
theorem lookup (h : Borrows ts m m') (x : String) : m'.lookup x = m.lookup x :=
  lookup_congr fun _ => h.holder_named_iff

theorem unique (h : Borrows ts m m') (hunique : m.Unique) : m'.Unique :=
  hunique.anti fun _ _ hr => h.holder_named_iff.1 hr

end Borrows

/-! ## Extending -/

/-- All that is held stays where it is, and the innermost block gains only names without a
register. -/
structure Extends (m m' : RegisterMap) : Prop where
  holder : ∀ {r holder}, m.holder r = some holder → m'.holder r = some holder
  frames : ∃ names, (∀ x ∈ names, m.lookup x = none) ∧ m'.frames = m.frames.modifyHead (names ++ ·)
  unique : m.Unique → m'.Unique

theorem Borrows.extends (h : Borrows ts m m') : Extends m m' := by
  refine ⟨h.holder, ⟨[], by simp, ?_⟩, h.unique⟩
  rw [h.frames]
  cases m.frames <;> rfl

namespace Extends

theorem refl (m : RegisterMap) : Extends m m := (Borrows.refl m).extends

theorem lookup_eq_none (h : Extends m m') (hx : m'.lookup x = none) : m.lookup x = none := by
  cases hlookup : m.lookup x with
  | none => rfl
  | some r =>
    obtain ⟨r', hr'⟩ := exists_lookup_of_holder (h.holder (holder_of_lookup hlookup))
    rw [hr'] at hx
    cases hx

/-- Extending twice. -/
theorem trans (h : Extends m m') (h' : Extends m' m'') : Extends m m'' := by
  obtain ⟨names, hnames, hframes⟩ := h.frames
  obtain ⟨names', hnames', hframes'⟩ := h'.frames
  refine ⟨fun hr => h'.holder (h.holder hr), ⟨names' ++ names, ?_, ?_⟩,
    fun hunique => h'.unique (h.unique hunique)⟩
  · intro x hx
    rcases mem_append.1 hx with hx | hx
    · exact h.lookup_eq_none (hnames' x hx)
    · exact hnames x hx
  · rw [hframes', hframes]
    cases m.frames <;> simp

/-- In an extended map names are found where they were. -/
theorem lookup (h : Extends m m') (hunique : m.Unique) (hx : m.lookup x = some r) :
    m'.lookup x = some r :=
  (h.unique hunique).lookup (h.holder (holder_of_lookup hx))

/-- Temporaries that were held all the while are given back. -/
theorem releaseAll (h : Borrows ts m m') (h' : Extends m' m'') :
    Extends m (m''.releaseAll (ts.map Fin.val)) := by
  obtain ⟨names, hnames, hframes⟩ := h'.frames
  refine ⟨fun {r holder} hr => ?_, ⟨names, ?_, ?_⟩, fun hunique => ?_⟩
  · have hne : r ∉ ts := by
      intro hmem
      rw [h.free r hmem] at hr
      cases hr
    rw [holder_releaseAll_of_not fun hr' => hne hr'.1]
    exact h'.holder (h.holder hr)
  · intro x hx
    rw [← h.lookup]
    exact hnames x hx
  · rw [frames_releaseAll, hframes, h.frames]
  · refine (h'.unique (h.unique hunique)).anti fun r x hr => ?_
    by_cases htaken : r ∈ ts ∧ m''.holder r = some .temporary
    · rw [holder_releaseAll_of_mem htaken.1 htaken.2] at hr
      cases hr
    · rwa [holder_releaseAll_of_not htaken] at hr

end Extends

theorem frames_noteInFrame (m : RegisterMap) (x : String) :
    (m.noteInFrame x).frames = m.frames.modifyHead ([x] ++ ·) := by
  unfold noteInFrame
  split <;> simp_all

theorem holder_noteInFrame (m : RegisterMap) (x : String) (r : Register) :
    (m.noteInFrame x).holder r = m.holder r := by
  unfold noteInFrame
  split <;> rfl

/-- Binding a name gives it a register and disturbs nothing. -/
theorem extends_of_bind {binding : Binding} (h : bind x m = .ok (binding, m')) :
    Extends m m' ∧ m'.holder binding.register = some (.named x) := by
  unfold bind bindGlobal at h
  cases hlookup : m.lookup x with
  | some r =>
    rw [hlookup] at h
    cases h
    exact ⟨.refl m, holder_of_lookup hlookup⟩
  | none =>
    rw [hlookup] at h
    unfold occupy at h
    cases hfree : m.firstFree? with
    | none =>
      rw [hfree] at h
      cases h
    | some r =>
      rw [hfree] at h
      cases h
      have hnone := free_of_firstFree? hfree
      have hholder : ∀ r', ((m.take r (.named x)).noteInFrame x).holder r' =
          if r = r' then some (.named x) else m.holder r' := by
        intro r'
        rw [holder_noteInFrame, holder_take]
      refine ⟨⟨fun {r' holder} hr' => ?_, ⟨[x], by simpa using hlookup, ?_⟩, fun hunique => ?_⟩, ?_⟩
      · have hne : r ≠ r' := by
          rintro rfl
          rw [hnone] at hr'
          cases hr'
        exact (hholder r').trans ((if_neg hne).trans hr')
      · exact frames_noteInFrame ..
      · have htaken : (m.take r (.named x)).Unique := by
          refine hunique.take r ?_
          rintro y ⟨⟩
          exact hlookup
        refine htaken.anti fun r' y hr' => ?_
        rw [holder_take, ← hholder]
        exact hr'
      · exact (hholder r).trans (if_pos rfl)

/-! ## Blocks -/

theorem holder_unbind (m : RegisterMap) (x : String) (r : Register) :
    (m.unbind x).holder r = m.holder r ∨
      m.holder r = some (.named x) ∧ (m.unbind x).holder r = none := by
  unfold unbind
  split
  · rename_i r' hlookup
    rw [holder_free]
    by_cases heq : r' = r
    · subst heq
      exact .inr ⟨holder_of_lookup hlookup, if_pos rfl⟩
    · exact .inl (if_neg heq)
  · exact .inl rfl

/-- Unbinding names frees their registers and no others. -/
theorem holder_foldl_unbind (names : List String) (m : RegisterMap) (r : Register) :
    (names.foldl unbind m).holder r = m.holder r ∨
      (∃ x ∈ names, m.holder r = some (.named x)) ∧ (names.foldl unbind m).holder r = none := by
  induction names generalizing m with
  | nil => exact .inl rfl
  | cons x names ih =>
    rw [foldl_cons]
    rcases holder_unbind m x r with hfirst | ⟨hfirst, hnone⟩
    · rcases ih (m.unbind x) with hrest | ⟨⟨y, hy, hrest⟩, hnone⟩
      · exact .inl (hrest.trans hfirst)
      · exact .inr ⟨⟨y, mem_cons_of_mem _ hy, hfirst ▸ hrest⟩, hnone⟩
    · refine .inr ⟨⟨x, mem_cons_self .., hfirst⟩, ?_⟩
      rcases ih (m.unbind x) with hrest | ⟨-, hrest⟩
      · exact hrest.trans hnone
      · exact hrest

theorem frames_foldl_unbind (names : List String) (m : RegisterMap) :
    (names.foldl unbind m).frames = m.frames := by
  induction names generalizing m with
  | nil => rfl
  | cons x names ih =>
    rw [foldl_cons, ih]
    unfold unbind
    split <;> rfl

/-- **A block frees only its own names.** -/
theorem Extends.popScope (h : Extends m.pushScope m') : Extends m m'.popScope := by
  obtain ⟨names, hnames, hframes⟩ := h.frames
  have hframes : m'.frames = names :: m.frames := by
    rw [hframes]
    simp [pushScope]
  have hpop : m'.popScope = names.foldl unbind { m' with frames := m.frames } := by
    unfold RegisterMap.popScope
    rw [hframes]
  rw [hpop]
  refine ⟨fun {r holder} hr => ?_, ⟨[], by simp, ?_⟩, fun hunique => ?_⟩
  · have hr' : m'.holder r = some holder := h.holder hr
    rcases holder_foldl_unbind names { m' with frames := m.frames } r with
      hkept | ⟨⟨x, hx, hname⟩, -⟩
    · exact hkept.trans hr'
    · -- a name of the block had no register when the block was opened
      obtain rfl : Holder.named x = holder := Option.some.inj (hname.symm.trans hr')
      obtain ⟨r', hr'⟩ := exists_lookup_of_holder (m := m.pushScope) hr
      rw [hnames x hx] at hr'
      cases hr'
  · rw [frames_foldl_unbind]
    cases m.frames <;> rfl
  · refine (h.unique hunique).anti fun r x hr => ?_
    rcases holder_foldl_unbind names { m' with frames := m.frames } r with hkept | ⟨-, hnone⟩
    · exact hkept.symm.trans hr
    · rw [hnone] at hr
      cases hr

end ImpMachine.RegisterMap
