import Mathlib.Data.Fin.Tuple.Basic
import Mathlib.Data.List.Induction
import Mathlib.Data.List.Infix
import ImpMachine.Proofs.BodyRegisters

/-!
# Registers over a whole history

What holds of a register map after any requests whatever, opened and closed blocks among them. One
request does one of five things to the names (`NameStep`). From this it follows that no request
puts the map out of order (`Orderly.after`), that a name keeps its register until the block that it
was bound in is closed, and that closing a block frees exactly the names that were bound in it
(`registers_over_history`).
-/

namespace ImpMachine.RegisterMap

open List

variable {frames : List (List String)} {y : String} {depth : Nat}

/-! ## Requests -/

/-- A request to the register map. -/
inductive Request where
  | bind (name : String)
  | bindGlobal (name : String)
  | temp
  | release (number : Nat)
  | pushScope
  | popScope
  | resetTouched
  | reserveTouched

variable {later inner : List Request}

/-- The answer to a request, and the map after it. -/
def Request.perform : Request → RegisterMap → Except AssembleError (Option Binding × RegisterMap)
  | .bind name, m => (RegisterMap.bind name m).map (Prod.map some id)
  | .bindGlobal name, m => (RegisterMap.bindGlobal name m).map (Prod.map some id)
  | .temp, m => (RegisterMap.temp m).map (Prod.map (some ⟨·, true⟩) id)
  | .release number, m => .ok (none, m.release number)
  | .pushScope, m => .ok (none, m.pushScope)
  | .popScope, m => .ok (none, m.popScope)
  | .resetTouched, m => .ok (none, m.resetTouched)
  | .reserveTouched, m => .ok (none, m.reserveTouched)

/-- What a request wants a register for. -/
def Request.claimant : Request → Option Holder
  | .bind name | .bindGlobal name => some (.named name)
  | .temp => some .temporary
  | _ => none

/-- The request asks for a register that it does not have yet. -/
def Request.IsFresh (m : RegisterMap) (q : Request) : Prop :=
  ∃ holder, q.claimant = some holder ∧ ∀ name, holder = .named name → m.lookup name = none

/-- The map after a request. One that fails changes nothing. -/
def after (m : RegisterMap) (q : Request) : RegisterMap :=
  match q.perform m with
  | .ok (_, m') => m'
  | .error _ => m

/-- The map after several requests. -/
def afterAll (m : RegisterMap) (history : List Request) : RegisterMap :=
  history.foldl after m

variable {m m' : RegisterMap} {x : String} {r : Register} {q : Request}

theorem after_eq {answer : Option Binding} (h : q.perform m = .ok (answer, m')) :
    m.after q = m' := by
  rw [after, h]

theorem afterAll_concat (m : RegisterMap) (front : List Request) (q : Request) :
    m.afterAll (front ++ [q]) = (m.afterAll front).after q :=
  foldl_append

/-! ## Answers -/

/-- The register is free, and none below it is. -/
def IsLowestFree (m : RegisterMap) (r : Register) : Prop :=
  m.holder r = none ∧ ∀ r' < r, m.holder r' ≠ none

/-- The register found is the lowest free one. -/
theorem firstFree?_eq_some_iff : m.firstFree? = some r ↔ m.IsLowestFree r := by
  have hfind : m.firstFree? = Fin.find? fun r => (m.holder r).isNone :=
    Fin.find?_eq_find?_finRange.symm
  simp [hfind, IsLowestFree, ← Option.ne_none_iff_isSome]

theorem firstFree?_eq_none_iff : m.firstFree? = none ↔ ∀ r, m.holder r ≠ none := by
  have hfind : m.firstFree? = Fin.find? fun r => (m.holder r).isNone :=
    Fin.find?_eq_find?_finRange.symm
  simp [hfind, ← Option.ne_none_iff_isSome]

/-- The map after a request that took a register. -/
def Request.taking (m : RegisterMap) (r : Register) : Request → RegisterMap
  | .bind name => (m.take r (.named name)).noteInFrame name
  | .bindGlobal name => m.take r (.named name)
  | _ => m.take r .temporary

namespace Request.IsFresh

variable (h : q.IsFresh m)

include h

/-- With a free register, a fresh request gets one. -/
theorem perform_of_free (hfree : m.firstFree? = some r) :
    q.perform m = .ok (some ⟨r, true⟩, q.taking m r) := by
  obtain ⟨holder, hclaimant, hnone⟩ := h
  cases q with
  | bind name | bindGlobal name =>
    cases hclaimant
    simp [perform, RegisterMap.bind, RegisterMap.bindGlobal, occupy, hnone name rfl, hfree,
      Except.map, taking]
  | temp => simp [perform, RegisterMap.temp, occupy, hfree, Except.map, taking]
  | release | pushScope | popScope | resetTouched | reserveTouched => cases hclaimant

/-- With none free, a fresh request fails. -/
theorem perform_of_full (hfull : m.firstFree? = none) : ∃ fault, q.perform m = .error fault := by
  obtain ⟨holder, hclaimant, hnone⟩ := h
  cases q with
  | bind name | bindGlobal name =>
    cases hclaimant
    simp [perform, RegisterMap.bind, RegisterMap.bindGlobal, occupy, hnone name rfl, hfull,
      Except.map]
  | temp => simp [perform, RegisterMap.temp, occupy, hfull, Except.map]
  | release | pushScope | popScope | resetTouched | reserveTouched => cases hclaimant

theorem holder_taking (r : Register) : (q.taking m r).holder r = q.claimant := by
  obtain ⟨holder, hclaimant, -⟩ := h
  cases q with
  | bind name =>
    rw [taking, holder_noteInFrame, holder_take, if_pos rfl]
    rfl
  | bindGlobal | temp => exact (holder_take ..).trans (if_pos rfl)
  | release | pushScope | popScope | resetTouched | reserveTouched => cases hclaimant

end Request.IsFresh

theorem isFresh_bind : (Request.bind x).IsFresh m ↔ m.lookup x = none := by
  simp [Request.IsFresh, Request.claimant]

theorem isFresh_bindGlobal : (Request.bindGlobal x).IsFresh m ↔ m.lookup x = none := by
  simp [Request.IsFresh, Request.claimant]

theorem isFresh_temp (m : RegisterMap) : Request.temp.IsFresh m := by
  simp [Request.IsFresh, Request.claimant]

/-- A name that has a register is given this one. -/
theorem perform_of_lookup (h : m.lookup x = some r) :
    (Request.bind x).perform m = .ok (some ⟨r, false⟩, m) ∧
      (Request.bindGlobal x).perform m = .ok (some ⟨r, false⟩, m) := by
  simp [Request.perform, bind, bindGlobal, h, Except.map]

/-- A request fails only for want of a register. -/
theorem perform_eq_error_iff :
    (∃ fault, q.perform m = .error fault) ↔ q.IsFresh m ∧ ∀ r, m.holder r ≠ none := by
  rw [← firstFree?_eq_none_iff]
  refine ⟨fun ⟨fault, h⟩ => ?_, fun ⟨hfresh, hfull⟩ => hfresh.perform_of_full hfull⟩
  have hfresh : q.IsFresh m := by
    cases q with
    | bind name =>
      refine isFresh_bind.2 (Option.eq_none_iff_forall_ne_some.2 fun r hr => ?_)
      rw [(perform_of_lookup hr).1] at h
      cases h
    | bindGlobal name =>
      refine isFresh_bindGlobal.2 (Option.eq_none_iff_forall_ne_some.2 fun r hr => ?_)
      rw [(perform_of_lookup hr).2] at h
      cases h
    | temp => exact isFresh_temp m
    | release | pushScope | popScope | resetTouched | reserveTouched => cases h
  refine ⟨hfresh, Option.eq_none_iff_forall_ne_some.2 fun r hfree => ?_⟩
  rw [hfresh.perform_of_free hfree] at h
  cases h

/-! ## What a request does to the names -/

theorem lookup_take_temporary (hfree : m.holder r = none) (y : String) :
    (m.take r .temporary).lookup y = m.lookup y := by
  refine lookup_congr fun r' => ?_
  rw [holder_take]
  split
  · rename_i heq
    simp [← heq, hfree]
  · rfl

/-- A name taken in gets the register, and others keep theirs. -/
theorem lookup_take_named (hunique : m.Unique) (hfree : m.holder r = none) (hx : m.lookup x = none)
    (y : String) : (m.take r (.named x)).lookup y = if y = x then some r else m.lookup y := by
  split
  · rename_i heq
    subst heq
    have htaken : (m.take r (.named y)).Unique := by
      refine hunique.take r ?_
      rintro _ ⟨⟩
      exact hx
    exact htaken.lookup (by rw [holder_take, if_pos rfl])
  · rename_i hne
    refine lookup_congr fun r' => ?_
    rw [holder_take]
    split
    · rename_i heq
      simp [← heq, hfree, Ne.symm hne]
    · rfl

theorem lookup_noteInFrame (m : RegisterMap) (x y : String) :
    (m.noteInFrame x).lookup y = m.lookup y :=
  lookup_congr fun r => by rw [holder_noteInFrame]

theorem named_release (m : RegisterMap) (number : Nat) (r : Register) (y : String) :
    (m.release number).holder r = some (.named y) ↔ m.holder r = some (.named y) := by
  by_cases hnumber : number < registerCount
  · rw [holder_release m ⟨number, hnumber⟩ r]
    split
    · rename_i h
      simp [h.2]
    · rfl
  · rw [release, dif_neg hnumber]

theorem named_reserveTouched (m : RegisterMap) (r : Register) (y : String) :
    m.reserveTouched.holder r = some (.named y) ↔ m.holder r = some (.named y) := by
  rw [holder_reserveTouched]
  split
  · rename_i h
    simp [h.2]
  · rfl

theorem Unique.unbind (hunique : m.Unique) (x : String) : (m.unbind x).Unique := by
  refine hunique.anti fun r y hr => ?_
  rcases holder_unbind m x r with hkept | ⟨-, hnone⟩
  · rwa [hkept] at hr
  · rw [hnone] at hr
    cases hr

theorem Unique.foldl_unbind (hunique : m.Unique) (names : List String) :
    (names.foldl RegisterMap.unbind m).Unique := by
  induction names generalizing m with
  | nil => exact hunique
  | cons x names ih => exact ih (hunique.unbind x)

/-- A name that is given up has no register, and the others keep theirs. -/
theorem lookup_unbind (hunique : m.Unique) (x y : String) :
    (m.unbind x).lookup y = if y = x then none else m.lookup y := by
  unfold RegisterMap.unbind
  split
  · rename_i r hr
    split
    · rename_i heq
      subst heq
      -- a second register of the name would have been found
      rw [Option.eq_none_iff_forall_ne_some]
      intro r' hr'
      have hholder := holder_of_lookup hr'
      rw [holder_free] at hholder
      split at hholder
      · cases hholder
      · rename_i hne
        exact hne (hunique r r' y (holder_of_lookup hr) hholder)
    · rename_i hne
      refine lookup_congr fun r' => ?_
      rw [holder_free]
      split
      · rename_i heq
        simp [← heq, holder_of_lookup hr, Ne.symm hne]
      · rfl
  · rename_i hnone
    split
    · rename_i heq
      rw [heq, hnone]
    · rfl

theorem lookup_foldl_unbind (hunique : m.Unique) (names : List String) (y : String) :
    (names.foldl RegisterMap.unbind m).lookup y = if y ∈ names then none else m.lookup y := by
  induction names generalizing m with
  | nil => simp
  | cons x names ih =>
    rw [foldl_cons, ih (hunique.unbind x), lookup_unbind hunique]
    by_cases hnames : y ∈ names <;> by_cases hx : y = x <;> simp [hnames, hx]

theorem popScope_eq (m : RegisterMap) :
    m.popScope =
      (m.frames.headD []).foldl RegisterMap.unbind { m with frames := m.frames.tail } := by
  unfold popScope
  split
  · rename_i heq
    rw [heq]
    exact congrArg (RegisterMap.mk m.holders · m.touched) heq
  · rename_i heq
    rw [heq]
    rfl

/-- What a request does to the names and the open blocks. -/
inductive NameStep (m m' : RegisterMap) : Request → Prop where
  | still {q : Request} :
      q ≠ .pushScope → q ≠ .popScope → (∀ y, m'.lookup y = m.lookup y) → m'.frames = m.frames →
      NameStep m m' q
  | bound {x : String} {r : Register} :
      m.lookup x = none → (∀ y, m'.lookup y = if y = x then some r else m.lookup y) →
      m'.frames = m.frames.modifyHead (x :: ·) → NameStep m m' (.bind x)
  | boundGlobally {x : String} {r : Register} :
      m.lookup x = none → (∀ y, m'.lookup y = if y = x then some r else m.lookup y) →
      m'.frames = m.frames → NameStep m m' (.bindGlobal x)
  | opened :
      (∀ y, m'.lookup y = m.lookup y) → m'.frames = [] :: m.frames → NameStep m m' .pushScope
  | closed :
      (∀ y, m'.lookup y = if y ∈ m.frames.headD [] then none else m.lookup y) →
      m'.frames = m.frames.tail → NameStep m m' .popScope

theorem nameStep_self (m : RegisterMap) (hpush : q ≠ .pushScope) (hpop : q ≠ .popScope) :
    NameStep m m q :=
  .still hpush hpop (fun _ => rfl) rfl

/-- A request for a register takes one that is free, or changes nothing. -/
theorem after_of_claimant (m : RegisterMap) (q : Request) {holder : Holder}
    (h : q.claimant = some holder) :
    (∃ r, q.IsFresh m ∧ m.holder r = none ∧ m.after q = q.taking m r) ∨ m.after q = m := by
  by_cases hfresh : q.IsFresh m
  · cases hfree : m.firstFree? with
    | some r =>
      exact .inl ⟨r, hfresh, free_of_firstFree? hfree, after_eq (hfresh.perform_of_free hfree)⟩
    | none =>
      obtain ⟨fault, hfault⟩ := hfresh.perform_of_full hfree
      exact .inr (by rw [RegisterMap.after, hfault])
  · right
    cases q with
    | bind name =>
      obtain ⟨r, hr⟩ := Option.ne_none_iff_exists'.1 (mt isFresh_bind.2 hfresh)
      exact after_eq (perform_of_lookup hr).1
    | bindGlobal name =>
      obtain ⟨r, hr⟩ := Option.ne_none_iff_exists'.1 (mt isFresh_bindGlobal.2 hfresh)
      exact after_eq (perform_of_lookup hr).2
    | temp => exact absurd (isFresh_temp m) hfresh
    | release | pushScope | popScope | resetTouched | reserveTouched => cases h

/-- **What one request does.** -/
theorem Unique.nameStep (hunique : m.Unique) (q : Request) : NameStep m (m.after q) q := by
  cases q with
  | bind name =>
    rcases after_of_claimant m (.bind name) rfl with ⟨r, hfresh, hfree, heq⟩ | heq
    · rw [heq]
      have hnone := isFresh_bind.1 hfresh
      have hlookup (y : String) := lookup_take_named hunique hfree hnone y
      exact .bound hnone (fun y => (lookup_noteInFrame ..).trans (hlookup y))
        (frames_noteInFrame _ _)
    · rw [heq]
      exact nameStep_self m (by simp) (by simp)
  | bindGlobal name =>
    rcases after_of_claimant m (.bindGlobal name) rfl with ⟨r, hfresh, hfree, heq⟩ | heq
    · rw [heq]
      have hnone := isFresh_bindGlobal.1 hfresh
      exact .boundGlobally hnone (lookup_take_named hunique hfree hnone) rfl
    · rw [heq]
      exact nameStep_self m (by simp) (by simp)
  | temp =>
    rcases after_of_claimant m .temp rfl with ⟨r, -, hfree, heq⟩ | heq
    · rw [heq]
      exact .still (by simp) (by simp) (lookup_take_temporary hfree) rfl
    · rw [heq]
      exact nameStep_self m (by simp) (by simp)
  | release number =>
    exact .still (by simp) (by simp) (fun y => lookup_congr fun r => named_release m number r y)
      (frames_release m number)
  | pushScope => exact .opened (fun _ => rfl) rfl
  | popScope =>
    have heq : m.after .popScope = m.popScope := rfl
    have htail : ({ m with frames := m.frames.tail } : RegisterMap).Unique := hunique
    rw [heq, popScope_eq]
    exact .closed (lookup_foldl_unbind htail _) (frames_foldl_unbind _ _)
  | resetTouched => exact .still (by simp) (by simp) (fun _ => rfl) rfl
  | reserveTouched =>
    exact .still (by simp) (by simp) (fun y => lookup_congr fun r => named_reserveTouched m r y) rfl

/-! ## Order -/

theorem Request.IsFresh.unique_taking (h : q.IsFresh m) (hunique : m.Unique) (r : Register) :
    (q.taking m r).Unique := by
  obtain ⟨holder, hclaimant, hnone⟩ := h
  cases q with
  | bind name =>
    cases hclaimant
    refine (hunique.take r hnone).anti fun r' y hr' => ?_
    exact (holder_noteInFrame ..).symm.trans hr'
  | bindGlobal name | temp =>
    cases hclaimant
    exact hunique.take r hnone
  | release | pushScope | popScope | resetTouched | reserveTouched => cases hclaimant

/-- **Every request keeps one register to a name.** -/
theorem Unique.after (hunique : m.Unique) (q : Request) : (m.after q).Unique := by
  -- what takes a register is a temporary or a name that has none
  have hclaim {holder : Holder} (hclaimant : q.claimant = some holder) : (m.after q).Unique := by
    rcases after_of_claimant m q hclaimant with ⟨r, hfresh, -, heq⟩ | heq
    · rw [heq]
      exact hfresh.unique_taking hunique r
    · rwa [heq]
  cases q with
  | bind | bindGlobal | temp => exact hclaim rfl
  | release number => exact hunique.anti fun r y => (named_release m number r y).1
  | pushScope | resetTouched => exact hunique
  | popScope =>
    have heq : m.after .popScope = m.popScope := rfl
    have htail : ({ m with frames := m.frames.tail } : RegisterMap).Unique := hunique
    rw [heq, popScope_eq]
    exact htail.foldl_unbind _
  | reserveTouched => exact hunique.anti fun r y => (named_reserveTouched m r y).1

/-- No name has two registers, and every name that an open block lists has one and is listed
once. -/
structure Orderly (m : RegisterMap) : Prop where
  unique : m.Unique
  once : m.frames.flatten.Nodup
  bound : ∀ x ∈ m.frames.flatten, ∃ r, m.lookup x = some r

theorem orderly_empty : empty.Orderly :=
  ⟨unique_empty, nodup_nil, forall_mem_nil _⟩

theorem Orderly.notMem_flatten (h : m.Orderly) (hnone : m.lookup x = none) :
    x ∉ m.frames.flatten := by
  intro hx
  obtain ⟨r, hr⟩ := h.bound x hx
  rw [hnone] at hr
  cases hr

/-- A name of the innermost open block is in no other one. -/
theorem Orderly.notMem_headD (h : m.Orderly) (hx : x ∈ m.frames.tail.flatten) :
    x ∉ m.frames.headD [] := by
  have honce := h.once
  cases hm : m.frames with
  | nil => exact not_mem_nil
  | cons frame outer =>
    rw [hm] at hx honce
    exact fun hframe => (nodup_append.1 honce).2.2 x hframe x hx rfl

theorem mem_flatten_modifyHead (hne : x ≠ y) :
    x ∈ (frames.modifyHead (y :: ·)).flatten ↔ x ∈ frames.flatten := by
  cases frames <;> simp [hne]

theorem mem_flatten_of_mem_tail (h : x ∈ frames.tail.flatten) : x ∈ frames.flatten := by
  cases frames with
  | nil => exact h
  | cons frame outer => exact mem_append_right _ h

theorem Orderly.once_of_nameStep (h : m.Orderly) (hstep : NameStep m m' q) :
    m'.frames.flatten.Nodup := by
  have honce := h.once
  cases hstep with
  | still _ _ _ hframes | boundGlobally _ _ hframes | opened _ hframes => rwa [hframes]
  | bound hnone _ hframes =>
    have hmore := nodup_cons.2 ⟨h.notMem_flatten hnone, honce⟩
    rw [hframes]
    cases hm : m.frames with
    | nil => exact nodup_nil
    | cons frame outer => rwa [hm] at hmore
  | closed _ hframes =>
    rw [hframes]
    cases hm : m.frames with
    | nil => exact nodup_nil
    | cons frame outer =>
      rw [hm] at honce
      exact (nodup_append.1 honce).2.1

theorem Orderly.bound_of_nameStep (h : m.Orderly) (hstep : NameStep m m' q) (y : String)
    (hy : y ∈ m'.frames.flatten) : ∃ r, m'.lookup y = some r := by
  cases hstep with
  | still _ _ hlookup hframes | opened hlookup hframes =>
    rw [hframes] at hy
    rw [hlookup]
    exact h.bound y hy
  | @bound x r _ hlookup hframes =>
    rw [hlookup]
    split
    · exact ⟨r, rfl⟩
    · rename_i hne
      rw [hframes] at hy
      exact h.bound y ((mem_flatten_modifyHead hne).1 hy)
  | @boundGlobally x r _ hlookup hframes =>
    rw [hlookup]
    split
    · exact ⟨r, rfl⟩
    · exact h.bound y (hframes ▸ hy)
  | closed hlookup hframes =>
    rw [hframes] at hy
    rw [hlookup, if_neg (h.notMem_headD hy)]
    exact h.bound y (mem_flatten_of_mem_tail hy)

/-- **No request puts the map out of order.** -/
theorem Orderly.after (h : m.Orderly) (q : Request) : (m.after q).Orderly := by
  have hstep := h.unique.nameStep q
  exact ⟨h.unique.after q, h.once_of_nameStep hstep, h.bound_of_nameStep hstep⟩

/-- **No history puts the map out of order.** -/
theorem Orderly.afterAll (h : m.Orderly) (history : List Request) :
    (m.afterAll history).Orderly := by
  induction history generalizing m with
  | nil => exact h
  | cons q history ih => exact ih (h.after q)

/-! ## Keeping a register -/

/-- What a request does to a name that has a register. -/
theorem NameStep.of_lookup (h : NameStep m m' q) (hr : m.lookup x = some r) :
    (m'.lookup x = some r ∧ (m'.frames = m.frames ∨ m'.frames = [] :: m.frames ∨
        ∃ y, x ≠ y ∧ m'.frames = m.frames.modifyHead (y :: ·))) ∨
      m'.lookup x = (if x ∈ m.frames.headD [] then none else some r) ∧
        m'.frames = m.frames.tail := by
  have hne {y : String} (hy : m.lookup y = none) : x ≠ y := by
    rintro rfl
    rw [hy] at hr
    cases hr
  cases h with
  | still _ _ hlookup hframes => exact .inl ⟨(hlookup x).trans hr, .inl hframes⟩
  | bound hy hlookup hframes =>
    exact .inl ⟨by rw [hlookup, if_neg (hne hy), hr], .inr (.inr ⟨_, hne hy, hframes⟩)⟩
  | boundGlobally hy hlookup hframes =>
    exact .inl ⟨by rw [hlookup, if_neg (hne hy), hr], .inl hframes⟩
  | opened hlookup hframes => exact .inl ⟨(hlookup x).trans hr, .inr (.inl hframes)⟩
  | closed hlookup hframes => exact .inr ⟨by rw [hlookup, hr], hframes⟩

/-- At least `depth` blocks are open all the way. -/
def StaysOpen (depth : Nat) (m : RegisterMap) (later : List Request) : Prop :=
  ∀ front, front <+: later → depth ≤ (m.afterAll front).frames.length

theorem StaysOpen.cons (h : StaysOpen depth m (q :: later)) :
    depth ≤ (m.after q).frames.length ∧ StaysOpen depth (m.after q) later := by
  refine ⟨h [q] ⟨later, rfl⟩, fun front hfront => ?_⟩
  exact h (q :: front) (cons_prefix_cons.2 ⟨rfl, hfront⟩)

/-- The name is listed in the open block of this number, the outermost being number one. -/
def ListedAt (m : RegisterMap) (depth : Nat) (x : String) : Prop :=
  ∃ (inner : List (List String)) (frame : List String) (outer : List (List String)),
    m.frames = inner ++ frame :: outer ∧ outer.length + 1 = depth ∧ x ∈ frame

section Keeping

variable (h : m.Orderly) (hr : m.lookup x = some r)

include h hr

/-- A name that no open block lists stays so and keeps its register. -/
theorem Orderly.keeps_unlisted (hx : x ∉ m.frames.flatten) (q : Request) :
    (m.after q).lookup x = some r ∧ x ∉ (m.after q).frames.flatten := by
  rcases (h.unique.nameStep q).of_lookup hr with
    ⟨hkept, hframes | hframes | ⟨y, hne, hframes⟩⟩ | ⟨hlookup, hframes⟩
  · exact ⟨hkept, by rwa [hframes]⟩
  · exact ⟨hkept, by rwa [hframes]⟩
  · refine ⟨hkept, ?_⟩
    rwa [hframes, mem_flatten_modifyHead hne]
  · have hhead : x ∉ m.frames.headD [] := by
      cases hm : m.frames with
      | nil => exact not_mem_nil
      | cons frame outer =>
        rw [hm] at hx
        exact fun hframe => hx (mem_append_left _ hframe)
    rw [hlookup, if_neg hhead, hframes]
    exact ⟨rfl, fun hmem => hx (mem_flatten_of_mem_tail hmem)⟩

/-- A listed name keeps its place and its register while its block is open. -/
theorem Orderly.keeps_listed (hx : m.ListedAt depth x) (q : Request)
    (hdepth : depth ≤ (m.after q).frames.length) :
    (m.after q).lookup x = some r ∧ (m.after q).ListedAt depth x := by
  obtain ⟨inner, frame, outer, hm, hlength, hmem⟩ := hx
  rcases (h.unique.nameStep q).of_lookup hr with
    ⟨hkept, hframes | hframes | ⟨y, hne, hframes⟩⟩ | ⟨hlookup, hframes⟩
  · exact ⟨hkept, inner, frame, outer, hframes.trans hm, hlength, hmem⟩
  · exact ⟨hkept, [] :: inner, frame, outer, by rw [hframes, hm]; rfl, hlength, hmem⟩
  · refine ⟨hkept, ?_⟩
    cases inner with
    | nil => exact ⟨[], y :: frame, outer, by rw [hframes, hm]; rfl, hlength, .tail _ hmem⟩
    | cons first inner =>
      exact ⟨(y :: first) :: inner, frame, outer, by rw [hframes, hm]; rfl, hlength, hmem⟩
  · cases inner with
    | nil =>
      -- the block of the name would be closed
      rw [hframes, hm] at hdepth
      simp only [nil_append, tail_cons] at hdepth
      omega
    | cons first inner =>
      have htail : m.frames.tail = inner ++ frame :: outer := by rw [hm]; rfl
      have hhead := h.notMem_headD (x := x) (by simp [htail, hmem])
      rw [hlookup, if_neg hhead]
      exact ⟨rfl, inner, frame, outer, hframes.trans htail, hlength, hmem⟩

/-- A name in no frame keeps its register forever. -/
theorem Orderly.keeps_unlisted_all (hx : x ∉ m.frames.flatten) (later : List Request) :
    (m.afterAll later).lookup x = some r := by
  induction later generalizing m with
  | nil => exact hr
  | cons q later ih =>
    obtain ⟨hkept, hstill⟩ := h.keeps_unlisted hr hx q
    exact ih (h.after q) hkept hstill

/-- A name keeps its register while its frame is open. -/
theorem Orderly.keeps_listed_all (hx : m.ListedAt depth x) (hopen : StaysOpen depth m later) :
    (m.afterAll later).lookup x = some r ∧ (m.afterAll later).ListedAt depth x := by
  induction later generalizing m with
  | nil => exact ⟨hr, hx⟩
  | cons q later ih =>
    obtain ⟨hdepth, hopen⟩ := hopen.cons
    obtain ⟨hkept, hstill⟩ := h.keeps_listed hr hx q hdepth
    exact ih (h.after q) hkept hstill hopen

end Keeping

/-- Closing the block of a name frees its register. -/
theorem Orderly.frees_listed (h : m.Orderly) (hx : m.ListedAt m.frames.length x) :
    (m.after .popScope).lookup x = none := by
  obtain ⟨inner, frame, outer, hm, hlength, hmem⟩ := hx
  have hinner : inner = [] := by
    rw [hm, length_append, length_cons] at hlength
    exact eq_nil_of_length_eq_zero (by omega)
  subst hinner
  cases h.unique.nameStep .popScope with
  | still _ hpop => exact absurd rfl hpop
  | closed hlookup _ => rw [hlookup, if_pos (by rw [hm]; exact hmem)]

/-- Where a name is listed after it was bound. -/
theorem Unique.frames_after_bind (hunique : m.Unique) (hnone : m.lookup x = none)
    (hr : (m.after (.bind x)).lookup x = some r) :
    (m.after (.bind x)).frames = m.frames.modifyHead (x :: ·) := by
  cases hunique.nameStep (.bind x) with
  | still _ _ hlookup _ =>
    rw [hlookup, hnone] at hr
    cases hr
  | bound _ _ hframes => exact hframes

/-- A name keeps its register until the block around its binding is closed. -/
theorem Orderly.keeps_bound (h : m.Orderly) (hnone : m.lookup x = none)
    (hr : (m.after (.bind x)).lookup x = some r)
    (hopen : StaysOpen m.frames.length (m.after (.bind x)) later) :
    ((m.after (.bind x)).afterAll later).lookup x = some r ∧
      (m.frames ≠ [] → ((m.after (.bind x)).afterAll later).frames.length = m.frames.length →
        (((m.after (.bind x)).afterAll later).after .popScope).lookup x = none) := by
  have hframes := h.unique.frames_after_bind hnone hr
  have hafter := h.after (.bind x)
  cases hm : m.frames with
  | nil =>
    have hx : x ∉ (m.after (.bind x)).frames.flatten := by
      rw [hframes, hm]
      exact not_mem_nil
    exact ⟨hafter.keeps_unlisted_all hr hx later, fun hne => absurd rfl hne⟩
  | cons frame outer =>
    have hx : (m.after (.bind x)).ListedAt m.frames.length x :=
      ⟨[], x :: frame, outer, by rw [hframes, hm]; rfl, by rw [hm]; rfl, .head _⟩
    obtain ⟨hkept, hlisted⟩ := hafter.keeps_listed_all hr hx hopen
    refine ⟨hkept, fun _ hlength => (hafter.afterAll later).frees_listed ?_⟩
    rwa [hlength, ← hm]

/-- A name that was bound beyond its block keeps its register for good. -/
theorem Orderly.keeps_boundGlobally (h : m.Orderly) (hnone : m.lookup x = none)
    (hr : (m.after (.bindGlobal x)).lookup x = some r) (later : List Request) :
    ((m.after (.bindGlobal x)).afterAll later).lookup x = some r := by
  have hframes : (m.after (.bindGlobal x)).frames = m.frames := by
    cases h.unique.nameStep (.bindGlobal x) with
    | still _ _ _ hframes | boundGlobally _ _ hframes => exact hframes
  refine (h.after (.bindGlobal x)).keeps_unlisted_all hr ?_ later
  rw [hframes]
  exact h.notMem_flatten hnone

/-! ## Blocks -/

/-- A request to bind the name in the innermost block of the start gave the name its register. -/
def FirstBound (m : RegisterMap) (inner : List Request) (x : String) : Prop :=
  ∃ (front back : List Request), inner = front ++ .bind x :: back ∧
    (m.afterAll front).frames.length = m.frames.length ∧ (m.afterAll front).lookup x = none ∧
      ((m.afterAll front).after (.bind x)).lookup x ≠ none

theorem firstBound_nil (m : RegisterMap) (x : String) : ¬FirstBound m [] x := by
  rintro ⟨front, back, heq, -⟩
  simp at heq

/-- A name is first bound before the last request or by it. -/
theorem firstBound_concat {front : List Request} :
    FirstBound m (front ++ [q]) x ↔ FirstBound m front x ∨
      q = .bind x ∧ (m.afterAll front).frames.length = m.frames.length ∧
        (m.afterAll front).lookup x = none ∧ ((m.afterAll front).after q).lookup x ≠ none := by
  constructor
  · rintro ⟨front', back, heq, hdepth, hnone, hbound⟩
    rcases eq_nil_or_concat back with rfl | ⟨back, q', rfl⟩
    · obtain ⟨rfl, hq⟩ := append_inj' heq rfl
      cases hq
      exact .inr ⟨rfl, hdepth, hnone, hbound⟩
    · rw [concat_eq_append, ← cons_append, ← append_assoc] at heq
      obtain ⟨rfl, -⟩ := append_inj' heq rfl
      exact .inl ⟨front', back, rfl, hdepth, hnone, hbound⟩
  · rintro (⟨front', back, rfl, hbound⟩ | ⟨rfl, hbound⟩)
    · exact ⟨front', back ++ [q], by simp, hbound⟩
    · exact ⟨front, [], rfl, hbound⟩

theorem StaysOpen.front {front : List Request} (h : StaysOpen depth m (front ++ [q])) :
    StaysOpen depth m front ∧ depth ≤ ((m.afterAll front).after q).frames.length := by
  refine ⟨fun front' hfront => h front' (hfront.trans (prefix_append _ _)), ?_⟩
  rw [← afterAll_concat]
  exact h _ (prefix_refl _)

/-- An opened block: `own` are its names, and `above` those of the blocks still open in it. -/
structure Block (m : RegisterMap) (inner : List Request) (above : List (List String))
    (own : List String) : Prop where
  frames : (m.pushScope.afterAll inner).frames = above ++ own :: m.frames
  own_iff : ∀ x, x ∈ own ↔ FirstBound m.pushScope inner x
  unbound : ∀ x, x ∈ above.flatten ∨ x ∈ own → m.lookup x = none
  kept : ∀ x r, m.lookup x = some r → (m.pushScope.afterAll inner).lookup x = some r

theorem block_nil (m : RegisterMap) : Block m [] [] [] where
  frames := rfl
  own_iff x := by simp [firstBound_nil]
  unbound x hx := by simp at hx
  kept _ _ hr := hr

namespace Block

variable {front : List Request} {above : List (List String)} {own : List String}

theorem lookup_eq_none (h : Block m front above own)
    (hnone : (m.pushScope.afterAll front).lookup x = none) : m.lookup x = none := by
  refine Option.eq_none_iff_forall_ne_some.2 fun r hr => ?_
  rw [h.kept x r hr] at hnone
  cases hnone

/-- A request that binds no name in the block leaves the names of the block. -/
theorem own_iff_concat (h : Block m front above own)
    (hq : ∀ y, q = .bind y → (m.pushScope.afterAll front).lookup y = none →
      ((m.pushScope.afterAll front).after q).lookup y ≠ none → above ≠ []) (y : String) :
    y ∈ own ↔ FirstBound m.pushScope (front ++ [q]) y := by
  rw [firstBound_concat, ← h.own_iff, or_iff_left]
  rintro ⟨heq, hdepth, hnone, hbound⟩
  have habove := length_pos_iff.2 (hq y heq hnone hbound)
  rw [h.frames] at hdepth
  simp only [length_append, length_cons, pushScope] at hdepth
  omega

theorem lookup_headD (h : Block m front above own)
    (hy : y ∈ (m.pushScope.afterAll front).frames.headD []) : m.lookup y = none := by
  rw [h.frames] at hy
  cases above with
  | nil => exact h.unbound y (.inr hy)
  | cons first above => exact h.unbound y (.inl (mem_append_left _ hy))

theorem kept_concat (h : Block m front above own) (hm : m.Orderly) (q : Request) (y : String)
    (r : Register) (hr : m.lookup y = some r) :
    (m.pushScope.afterAll (front ++ [q])).lookup y = some r := by
  have hinside : (m.pushScope.afterAll front).Orderly := (hm.after .pushScope).afterAll front
  rw [afterAll_concat]
  rcases (hinside.unique.nameStep q).of_lookup (h.kept y r hr) with ⟨hkept, -⟩ | ⟨hlookup, -⟩
  · exact hkept
  · rw [hlookup, if_neg]
    intro hy
    rw [h.lookup_headD hy] at hr
    cases hr

/-- **One request in an opened block.** -/
theorem concat (h : Block m front above own) (hm : m.Orderly)
    (hdepth : m.frames.length + 1 ≤ ((m.pushScope.afterAll front).after q).frames.length) :
    ∃ above' own', Block m (front ++ [q]) above' own' := by
  have hinside : (m.pushScope.afterAll front).Orderly := (hm.after .pushScope).afterAll front
  have hlast := afterAll_concat m.pushScope front q
  have hkept := h.kept_concat hm q
  cases hinside.unique.nameStep q with
  | still _ _ hlookup hframes =>
    refine ⟨above, own, by rw [hlast, hframes, h.frames], h.own_iff_concat ?_, h.unbound, hkept⟩
    intro y _ hnone hbound
    exact absurd ((hlookup y).trans hnone) hbound
  | @bound x r hnone hlookup hframes =>
    have hx := h.lookup_eq_none hnone
    cases habove : above with
    | nil =>
      have hframes : (m.pushScope.afterAll (front ++ [.bind x])).frames =
          [] ++ (x :: own) :: m.frames := by
        rw [hlast, hframes, h.frames, habove]
        rfl
      refine ⟨[], x :: own, hframes, fun y => ?_, ?_, hkept⟩
      · rw [firstBound_concat, ← h.own_iff, mem_cons, or_comm]
        refine or_congr_right ⟨?_, fun hy => ?_⟩
        · rintro rfl
          exact ⟨rfl, by rw [h.frames, habove]; rfl, hnone, by simp [hlookup]⟩
        · cases hy.1
          rfl
      · rintro y (hy | hy)
        · cases hy
        · rcases mem_cons.1 hy with rfl | hy
          · exact hx
          · exact h.unbound y (.inr hy)
    | cons first above' =>
      have hframes : (m.pushScope.afterAll (front ++ [.bind x])).frames =
          ((x :: first) :: above') ++ own :: m.frames := by
        rw [hlast, hframes, h.frames, habove]
        rfl
      refine ⟨_, own, hframes, h.own_iff_concat fun _ _ _ _ => by simp [habove], ?_, hkept⟩
      rintro y (hy | hy)
      · rcases mem_cons.1 hy with rfl | hy
        · exact hx
        · exact h.unbound y (.inl (by rw [habove]; exact hy))
      · exact h.unbound y (.inr hy)
  | boundGlobally _ _ hframes =>
    exact ⟨above, own, by rw [hlast, hframes, h.frames], h.own_iff_concat (by simp), h.unbound,
      hkept⟩
  | opened _ hframes =>
    have hframes : (m.pushScope.afterAll (front ++ [.pushScope])).frames =
        ([] :: above) ++ own :: m.frames := by
      rw [hlast, hframes, h.frames]
      rfl
    exact ⟨[] :: above, own, hframes, h.own_iff_concat (by simp), h.unbound, hkept⟩
  | closed _ hframes =>
    cases habove : above with
    | nil =>
      -- the block itself would be closed
      rw [hframes, h.frames, habove] at hdepth
      exact absurd hdepth (Nat.not_succ_le_self _)
    | cons first above' =>
      have hframes : (m.pushScope.afterAll (front ++ [.popScope])).frames =
          above' ++ own :: m.frames := by
        rw [hlast, hframes, h.frames, habove]
        rfl
      refine ⟨above', own, hframes, h.own_iff_concat (by simp), fun y hy => h.unbound y ?_, hkept⟩
      rw [habove]
      exact hy.imp_left (mem_append_right _)

end Block

/-- The own names of a block are those that were first bound in it. -/
theorem Orderly.exists_block (h : m.Orderly)
    (hopen : StaysOpen (m.frames.length + 1) m.pushScope inner) :
    ∃ above own, Block m inner above own := by
  induction inner using List.reverseRecOn with
  | nil => exact ⟨[], [], block_nil m⟩
  | append_singleton front q ih =>
    obtain ⟨hfront, hdepth⟩ := hopen.front
    obtain ⟨above, own, hblock⟩ := ih hfront
    exact hblock.concat h hdepth

/-- **Closing a block frees exactly its own names.** -/
theorem Orderly.block_closes (h : m.Orderly)
    (hopen : StaysOpen (m.frames.length + 1) m.pushScope inner)
    (hdepth : (m.pushScope.afterAll inner).frames.length = m.frames.length + 1) :
    (m.pushScope.afterAll inner).popScope.frames = m.frames ∧
      (∀ x r, m.lookup x = some r →
        (m.pushScope.afterAll inner).popScope.lookup x = some r) ∧
      ∀ x, (FirstBound m.pushScope inner x →
          (m.pushScope.afterAll inner).lookup x ≠ none ∧
            (m.pushScope.afterAll inner).popScope.lookup x = none) ∧
        (¬FirstBound m.pushScope inner x →
          (m.pushScope.afterAll inner).popScope.lookup x =
            (m.pushScope.afterAll inner).lookup x) := by
  obtain ⟨above, own, hblock⟩ := h.exists_block hopen
  have hinside : (m.pushScope.afterAll inner).Orderly := (h.after .pushScope).afterAll inner
  have habove : above = [] := by
    rw [hblock.frames, length_append, length_cons] at hdepth
    exact eq_nil_of_length_eq_zero (by omega)
  subst habove
  have hframes : (m.pushScope.afterAll inner).frames = own :: m.frames := hblock.frames
  cases hinside.unique.nameStep .popScope with
  | still _ hpop => exact absurd rfl hpop
  | closed hlookup htail =>
    have hlookup : ∀ y, (m.pushScope.afterAll inner).popScope.lookup y =
        if y ∈ own then none else (m.pushScope.afterAll inner).lookup y := by
      intro y
      rw [hframes] at hlookup
      exact hlookup y
    refine ⟨by rw [hframes] at htail; exact htail, fun x r hr => ?_, fun x => ⟨fun hx => ?_, ?_⟩⟩
    · have hx : x ∉ own := by
        intro hx
        rw [hblock.unbound x (.inr hx)] at hr
        cases hr
      rw [hlookup, if_neg hx, hblock.kept x r hr]
    · have hown := (hblock.own_iff x).2 hx
      obtain ⟨r, hr⟩ := hinside.bound x (by rw [hframes]; exact mem_append_left _ hown)
      exact ⟨by simp [hr], by rw [hlookup, if_pos hown]⟩
    · intro hx
      rw [hlookup, if_neg fun hown => hx ((hblock.own_iff x).1 hown)]

/-- **The registers over any history.** After any requests to an empty map no name has two
registers, and the names that open blocks list have one and are listed once. A fresh request takes
the lowest free register; a request fails only if it is fresh and no register is free, and then
changes nothing. A name that is bound keeps its register until the block around its binding is
closed, which frees it, and for good if it was bound outside of all blocks or beyond its block.
Between its opening and its closing a block disturbs no register of a name bound before, and its
closing frees the names that were first bound in it, and no others. -/
theorem registers_over_history {m : RegisterMap} {history : List Request}
    (hm : empty.afterAll history = m) :
    m.Orderly ∧
      (∀ (q : Request) (r : Register), q.IsFresh m → m.IsLowestFree r →
        ∃ m', q.perform m = .ok (some ⟨r, true⟩, m') ∧ m'.holder r = q.claimant) ∧
      (∀ q : Request,
        ((∃ fault, q.perform m = .error fault) ↔ q.IsFresh m ∧ ∀ r, m.holder r ≠ none) ∧
          ∀ fault, q.perform m = .error fault → m.after q = m) ∧
      (∀ (x : String) (r : Register) (later : List Request), m.lookup x = none →
        (m.after (.bind x)).lookup x = some r →
        StaysOpen m.frames.length (m.after (.bind x)) later →
        ((m.after (.bind x)).afterAll later).lookup x = some r ∧
          (m.frames ≠ [] → ((m.after (.bind x)).afterAll later).frames.length = m.frames.length →
            (((m.after (.bind x)).afterAll later).after .popScope).lookup x = none)) ∧
      (∀ (x : String) (r : Register) (later : List Request), m.lookup x = none →
        (m.after (.bindGlobal x)).lookup x = some r →
        ((m.after (.bindGlobal x)).afterAll later).lookup x = some r) ∧
      ∀ inner : List Request, StaysOpen (m.frames.length + 1) m.pushScope inner →
        (m.pushScope.afterAll inner).frames.length = m.frames.length + 1 →
        (m.pushScope.afterAll inner).popScope.frames = m.frames ∧
          (∀ x r, m.lookup x = some r →
            (m.pushScope.afterAll inner).popScope.lookup x = some r) ∧
          ∀ x, (FirstBound m.pushScope inner x →
              (m.pushScope.afterAll inner).lookup x ≠ none ∧
                (m.pushScope.afterAll inner).popScope.lookup x = none) ∧
            (¬FirstBound m.pushScope inner x →
              (m.pushScope.afterAll inner).popScope.lookup x =
                (m.pushScope.afterAll inner).lookup x) := by
  have horderly : m.Orderly := hm ▸ orderly_empty.afterAll history
  refine ⟨horderly, fun q r hfresh hr => ?_,
    fun q => ⟨perform_eq_error_iff, fun fault hfault => ?_⟩,
    fun x r later hnone hr hopen => horderly.keeps_bound hnone hr hopen,
    fun x r later hnone hr => horderly.keeps_boundGlobally hnone hr later,
    fun inner hopen hdepth => horderly.block_closes hopen hdepth⟩
  · exact ⟨_, hfresh.perform_of_free (firstFree?_eq_some_iff.2 hr), hfresh.holder_taking r⟩
  · rw [RegisterMap.after, hfault]

/-- A variable and a temporary. -/
def opening : List Request := [.bind "a", .temp]

/-- Requests in a block: a name of its own, one beyond it, and an inner block that binds a further
name and mentions the variable again. -/
def crossing : List Request :=
  [.bind "b", .bindGlobal "g", .pushScope, .bind "c", .bind "a", .popScope, .release 1]

theorem staysOpen_crossing : StaysOpen 1 (empty.afterAll opening).pushScope crossing := by
  have hall : (crossing.inits.all fun front =>
      decide (1 ≤ ((empty.afterAll opening).pushScope.afterAll front).frames.length)) = true := by
    decide
  intro front hfront
  exact of_decide_eq_true (all_eq_true.1 hall front ((mem_inits _ _).2 hfront))

theorem registers_over_history_crossing :
    (empty.afterAll opening).Orderly ∧
      ((empty.afterAll opening).pushScope.afterAll crossing).popScope.frames = [] ∧
      (((empty.afterAll opening).pushScope.afterAll crossing).popScope.lookup "a").map Fin.val =
        some 0 ∧
      ((empty.afterAll opening).pushScope.afterAll crossing).popScope.lookup "b" = none ∧
      (((empty.afterAll opening).pushScope.afterAll crossing).popScope.lookup "g").map Fin.val =
        some 3 := by
  obtain ⟨horderly, -, -, -, -, hblock⟩ :=
    @registers_over_history (empty.afterAll opening) opening rfl
  obtain ⟨hframes, hkept, hown⟩ := hblock crossing staysOpen_crossing rfl
  have hvariable : ((empty.afterAll opening).lookup "a").map Fin.val = some 0 := by decide
  have hbeyond : (((empty.afterAll opening).pushScope.afterAll crossing).lookup "g").map Fin.val =
      some 3 := by decide
  have hfirst : FirstBound (empty.afterAll opening).pushScope crossing "b" :=
    ⟨[], crossing.tail, rfl, rfl, by decide, by decide⟩
  have hnot : ¬FirstBound (empty.afterAll opening).pushScope crossing "g" := by
    rintro ⟨front, back, heq, -⟩
    have hmem : Request.bind "g" ∈ crossing := by simp [heq]
    simp [crossing] at hmem
  refine ⟨horderly, hframes, ?_, ((hown "b").1 hfirst).2, ?_⟩
  · obtain ⟨r, hr, hval⟩ := Option.map_eq_some_iff.1 hvariable
    rw [hkept "a" r hr, Option.map_some, hval]
  · rw [(hown "g").2 hnot, hbeyond]

end ImpMachine.RegisterMap
