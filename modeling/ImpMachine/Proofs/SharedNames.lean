import ImpMachine.Proofs.FirstReads

/-!
# Names that functions share with the rest of the program

A function keeps a variable that it does not declare under the variable's own name. The register
that such a name gets where it is first mentioned is the one that all functions and the top-level
code find, unless it is first mentioned inside a block (`assemble_shares_names`). The end of that
block gives the register up, and whoever mentions the name next may get another one, as `forgotten`
shows.
-/

namespace ImpMachine

open Assembly Linear RegisterMap List

variable {i : Instr} {b b' : Bindings} {σ : Site} {table : FunctionTable} {P : Point} {d : Draft}
variable {ds : List Draft} {code : List Instr} {image : Image} {scope : Option Scope} {depth : Nat}
variable {m m' : RegisterMap}

/-! ## Where a name is first mentioned -/

namespace Linear

variable (signatures : Signatures) (key : String)

/-- The number of open blocks, if the instruction mentions the key. -/
def Instr.mentionDepth (scope : Option Scope) (depth : Nat) (i : Instr) : Option Nat :=
  if (i.mentions signatures scope).contains key then some depth else none

/-- How many blocks are open where a body first mentions the key, in the order of lowering. -/
def Body.firstDepth : Body → Option Scope → Nat → Option Nat
  | .nil, _, _ => none
  | .plain i _ rest, scope, depth =>
    (i.mentionDepth signatures key scope depth).or (rest.firstDepth (i.scopeAfter scope) depth)
  | .conditional cond body rest, scope, depth =>
    ((Instr.ifBegin cond).mentionDepth signatures key scope depth).or
      ((body.firstDepth scope depth).or (rest.firstDepth (body.scopeAfter scope) depth))
  | .choice cond body other rest, scope, depth =>
    ((Instr.ifBegin cond).mentionDepth signatures key scope depth).or
      ((body.firstDepth scope depth).or
        ((other.firstDepth (body.scopeAfter scope) depth).or
          (rest.firstDepth (other.scopeAfter (body.scopeAfter scope)) depth)))
  | .loop cond body rest, scope, depth =>
    (((Instr.whileBegin cond).mentionDepth signatures key scope depth).or
      (body.firstDepth scope depth)).or (rest.firstDepth (body.scopeAfter scope) depth)
  | .block body rest, scope, depth =>
    (body.firstDepth scope (depth + 1)).or (rest.firstDepth (body.scopeAfter scope) depth)

variable {signatures key}

theorem Instr.mentionDepth_eq_none :
    i.mentionDepth signatures key scope depth = none ↔ key ∉ i.mentions signatures scope := by
  simp [mentionDepth]

theorem Instr.mentionDepth_eq_some {n : Nat} :
    i.mentionDepth signatures key scope depth = some n ↔
      key ∈ i.mentions signatures scope ∧ depth = n := by
  simp [mentionDepth]

namespace Body

end Body

end Linear

/-! ## Names with a register for good -/

namespace RegisterMap

variable {key : String} {r : Register} {p : Permit}

/-- The name has the register and no other one, and no open block gives it up. -/
structure Lasting (key : String) (r : Register) (m : RegisterMap) : Prop where
  holder : m.holder r = some (.named key)
  unique : m.Unique
  frames : ∀ frame ∈ m.frames, key ∉ frame

/-- The name has no register. -/
structure Absent (key : String) (m : RegisterMap) : Prop where
  lookup : m.lookup key = none
  unique : m.Unique

theorem Lasting.lookup (h : Lasting key r m) : m.lookup key = some r := h.unique.lookup h.holder

theorem Lasting.since (h : Lasting key r p.start) (hm : p.Since m) : Lasting key r m := by
  refine ⟨hm.holder h.holder, hm.unique h.unique, fun frame hframe hkey => ?_⟩
  obtain ⟨opened, base, hframes, -, hopened, hbase⟩ := hm.frames
  have hfresh : ¬p.Fresh key := fun hfresh => hfresh r h.holder
  rw [hframes, mem_append] at hframe
  rcases hframe with hframe | hframe
  · exact hfresh (hopened frame hframe key hkey)
  · rcases hbase frame hframe key hkey with hfresh' | ⟨old, hold, hkey⟩
    · exact hfresh hfresh'
    · exact h.frames old hold hkey

theorem Absent.since (h : Absent key p.start) (hm : p.Since m) (hkey : key ∉ p.names) :
    Absent key m :=
  ⟨hm.lookup_eq_none hkey h.lookup, hm.unique h.unique⟩

end RegisterMap

/-- The end of a loop gives back the temporary of its test. -/
theorem Assembly.draftEndTest_eq_ok {test : LoopTest}
    (h : draftEndTest test b = .ok ((), b')) :
    b' = { b with registers := b.registers.releaseAll (test.temporaries.map Fin.val) } := by
  rcases test with r | ⟨r, cond⟩
  · cases h
    rfl
  · obtain ⟨m, hm, rfl⟩ := request_eq_ok h
    cases hm
    rfl

/-! ## From the first mention on -/

/-- The stretch finds the name in the register, or gives it the register if it mentions the name. -/
structure Site.Finds (signatures : Signatures) (key : String) (r : Register) (σ : Site) : Prop where
  before : Absent key σ.before.registers ∨ Lasting key r σ.before.registers
  after : key ∈ σ.mentions signatures → Lasting key r σ.after.registers

/-- The stretch comes before all mentions of the name. -/
structure Site.Ignores (signatures : Signatures) (key : String) (σ : Site) : Prop where
  before : Absent key σ.before.registers
  not_mentions : key ∉ σ.mentions signatures

theorem Site.Ignores.finds {signatures : Signatures} {key : String}
    (h : σ.Ignores signatures key) (r : Register) : σ.Finds signatures key r :=
  ⟨.inl h.before, fun hmem => (h.not_mentions hmem).elim⟩

/-- Lowering from `m` to `m'` makes the stretches, and first mentions the name with that many blocks
open. A name that has a register for good keeps it. A name without a register has none until it is
mentioned, and gets one for good if no block is open then. -/
structure Sharing (signatures : Signatures) (key : String) (m m' : RegisterMap)
    (sites : Site → Prop) (first : Option Nat) : Prop where
  lasting : ∀ {r}, Lasting key r m → Lasting key r m' ∧
    ∀ σ, sites σ → Lasting key r σ.before.registers ∧ Lasting key r σ.after.registers
  absent : Absent key m → first = none → Absent key m' ∧ ∀ σ, sites σ → σ.Ignores signatures key
  found : IsVariable signatures key → Absent key m → first = some 0 →
    ∃ r, Lasting key r m' ∧ ∀ σ, sites σ → σ.Finds signatures key r

namespace Sharing

variable {signatures : Signatures} {key : String} {m₁ : RegisterMap}
variable {first first' : Option Nat} {sites sites' : Site → Prop}

theorem mono (h : Sharing signatures key m m' sites first) (hsites : ∀ σ, sites' σ → sites σ) :
    Sharing signatures key m m' sites' first := by
  refine ⟨fun hm => ?_, fun hm hfirst => ?_, fun hkey hm hfirst => ?_⟩
  · exact (h.lasting hm).imp_right fun hall σ hσ => hall σ (hsites σ hσ)
  · exact (h.absent hm hfirst).imp_right fun hall σ hσ => hall σ (hsites σ hσ)
  · obtain ⟨r, hr, hall⟩ := h.found hkey hm hfirst
    exact ⟨r, hr, fun σ hσ => hall σ (hsites σ hσ)⟩

/-- One part of the lowering after the other. -/
theorem trans (h : Sharing signatures key m m₁ sites first)
    (h' : Sharing signatures key m₁ m' sites' first') :
    Sharing signatures key m m' (fun σ => sites σ ∨ sites' σ) (first.or first') := by
  have hfinds {r : Register} {σ : Site} (hσ : Lasting key r σ.before.registers ∧
      Lasting key r σ.after.registers) : σ.Finds signatures key r := ⟨.inr hσ.1, fun _ => hσ.2⟩
  refine ⟨fun hm => ?_, fun hm hfirst => ?_, fun hkey hm hfirst => ?_⟩
  · obtain ⟨hm₁, hall⟩ := h.lasting hm
    obtain ⟨hm', hall'⟩ := h'.lasting hm₁
    exact ⟨hm', fun σ hσ => hσ.elim (hall σ) (hall' σ)⟩
  · obtain ⟨hfirst, hfirst'⟩ := Option.or_eq_none_iff.1 hfirst
    obtain ⟨hm₁, hall⟩ := h.absent hm hfirst
    obtain ⟨hm', hall'⟩ := h'.absent hm₁ hfirst'
    exact ⟨hm', fun σ hσ => hσ.elim (hall σ) (hall' σ)⟩
  · rcases Option.or_eq_some_iff.1 hfirst with hfirst | ⟨hfirst, hfirst'⟩
    · obtain ⟨r, hm₁, hall⟩ := h.found hkey hm hfirst
      obtain ⟨hm', hall'⟩ := h'.lasting hm₁
      exact ⟨r, hm', fun σ hσ => hσ.elim (hall σ) fun hσ => hfinds (hall' σ hσ)⟩
    · obtain ⟨hm₁, hall⟩ := h.absent hm hfirst
      obtain ⟨r, hm', hall'⟩ := h'.found hkey hm₁ hfirst'
      exact ⟨r, hm', fun σ hσ => hσ.elim (fun hσ => (hall σ hσ).finds r) (hall' σ)⟩

/-- A stretch that mentions the name only if it was mentioned before. -/
theorem extend (h : Sharing signatures key m σ.before.registers sites first)
    (hσ : σ.Framed signatures) (hmention : key ∈ σ.mentions signatures → first ≠ none) :
    Sharing signatures key m σ.after.registers (fun τ => sites τ ∨ τ = σ) first := by
  refine ⟨fun hm => ?_, fun hm hfirst => ?_, fun hkey hm hfirst => ?_⟩
  · obtain ⟨hbefore, hall⟩ := h.lasting hm
    have hafter := hbefore.since hσ.since
    exact ⟨hafter, fun τ hτ => hτ.elim (hall τ) fun heq => heq ▸ ⟨hbefore, hafter⟩⟩
  · obtain ⟨hbefore, hall⟩ := h.absent hm hfirst
    have hnot := mt hmention (not_not.2 hfirst)
    exact ⟨hbefore.since hσ.since hnot, fun τ hτ => hτ.elim (hall τ) fun heq =>
      heq ▸ ⟨hbefore, hnot⟩⟩
  · obtain ⟨r, hbefore, hall⟩ := h.found hkey hm hfirst
    have hafter := hbefore.since hσ.since
    exact ⟨r, hafter, fun τ hτ => hτ.elim (hall τ) fun heq => heq ▸ ⟨.inr hbefore, fun _ => hafter⟩⟩

end Sharing

/-! ## Stretches -/

/-- An assignment sets the register of its name. -/
theorem Assembly.sets_draftAssign {name : String} {value : Operand}
    {code : List Piece} (h : draftAssign table name value b = .ok (code, b')) :
    ∃ r, b'.registers.holder r = some (.named (keyIn b.scope name)) ∧ Sets (Piece.all code) r := by
  obtain ⟨binding, m, m', hbind, hload, rfl⟩ := draftAssign_eq_ok h
  obtain ⟨-, -, hheld, -⟩ := (Permit.since_start [keyIn b.scope name] [] [] b.registers).bind
    (mem_singleton_self _) hbind
  exact ⟨binding.register, (Permit.makes_load hload).kept hheld, sets_load hload⟩

namespace Point

variable {Q : Point} {key : String}

/-- A variable has a register behind a stretch that mentions it. -/
theorem Begins.exists_holder (h : P.Begins table σ)
    (hagain : ∀ test cond, σ.stretch ≠ .again test cond) (hkey : IsVariable table.signatures key)
    (hdeclared : σ.Declared table) (hmention : key ∈ σ.mentions table.signatures)
    (hnone : σ.before.registers.lookup key = none) :
    ∃ r, σ.after.registers.holder r = some (.named key) := by
  -- a name that is set has its register from then on, and one that is only read is cleared first
  by_cases htarget : key ∈ σ.stretch.instr.targets table.signatures σ.before.scope
  · cases h with
    | @plain i hi rest b b₁ offset pieces hpieces =>
      cases i with
      | declare name value =>
        obtain rfl := mem_singleton.1 htarget
        obtain ⟨_, _, ⟨⟩, hassign⟩ := run_bind_eq_ok.1 hpieces
        obtain ⟨r, hr, -⟩ := sets_draftAssign hassign
        exact ⟨r, hr⟩
      | assign name value =>
        obtain rfl := mem_singleton.1 htarget
        obtain ⟨r, hr, -⟩ := sets_draftAssign hpieces
        exact ⟨r, hr⟩
      | call callee args => exact (hkey.not_mem_parameterKeys callee htarget).elim
      | ret value =>
        obtain rfl := mem_singleton.1 htarget
        obtain ⟨binding, m, inner, m', hm, hm', rfl, rfl⟩ := draftRet_eq_ok hpieces
        exact ⟨binding.register, (Permit.makes_load hm').kept (Permit.since_bindGlobal hm).2⟩
      | _ => cases htarget
    | ifTest | choiceTest | loopTest | again => cases htarget
  · have hread : key ∈ σ.reads :=
      ((Instr.mem_mentions_iff hkey hdeclared).1 hmention).resolve_right htarget
    have hassigns : key ∉ σ.assigns table.signatures := by
      refine fun hmem => (mem_append.1 hmem).elim (fun hmem => ?_) htarget
      obtain ⟨e, -, hmem⟩ := mem_flatMap.1 hmem
      exact hkey.not_mem_assigns e hmem
    exact (h.firstRead hagain hkey hdeclared hread hassigns hnone).exists_holder

end Point

/-- The scope and the number of open blocks where lowering has come to. -/
structure Assembly.Bindings.StandsAt (b : Bindings) (scope : Option Scope) (depth : Nat) : Prop where
  scope_eq : b.scope = scope
  depth_eq : b.registers.frames.length = depth

section StandsAt

theorem Assembly.Bindings.StandsAt.draft (hb : b.StandsAt scope depth) {body : Linear.Body}
    (h : body.draft table b = .ok (d, b')) : b'.StandsAt (body.scopeAfter scope) depth := by
  have hrespects := Permit.respects_own_draft h
  exact ⟨by rw [hrespects.scope_eq, hb.scope_eq], hrespects.steady.depth.trans hb.depth_eq⟩

end StandsAt

namespace Sharing

/-- The first stretch of a statement. -/
theorem of_begins (key : String) (h : P.Begins table σ)
    (hagain : ∀ test cond, σ.stretch ≠ .again test cond) (hdeclared : σ.Declared table)
    (hbefore : σ.before.StandsAt scope depth) :
    Sharing table.signatures key σ.before.registers σ.after.registers (· = σ)
      (σ.stretch.instr.mentionDepth table.signatures key scope depth) := by
  obtain ⟨rfl, rfl⟩ := hbefore
  have hframed := h.framed
  refine ⟨fun hm => ?_, fun hm hfirst => ?_, fun hkey hm hfirst => ?_⟩
  · have hafter := hm.since hframed.since
    refine ⟨hafter, ?_⟩
    rintro τ rfl
    exact ⟨hm, hafter⟩
  · have hnot := Instr.mentionDepth_eq_none.1 hfirst
    refine ⟨hm.since hframed.since hnot, ?_⟩
    rintro τ rfl
    exact ⟨hm, hnot⟩
  · obtain ⟨hmention, hdepth⟩ := Instr.mentionDepth_eq_some.1 hfirst
    obtain ⟨r, hr⟩ := h.exists_holder hagain hkey hdeclared hmention hm.lookup
    -- no block is open, so none gives the register up
    have hframes : σ.after.registers.frames = [] :=
      length_eq_zero_iff.1 (hframed.steady.depth.trans hdepth)
    have hafter : Lasting key r σ.after.registers :=
      ⟨hr, hframed.since.unique hm.unique, by simp [hframes]⟩
    refine ⟨r, hafter, ?_⟩
    rintro τ rfl
    exact ⟨.inl hm, fun _ => hafter⟩

end Sharing

/-! ## Functions -/

namespace Assembly

/-- How many blocks are open where functions first mention the key, in the order of lowering. -/
def firstDepth (signatures : Signatures) (key : String) (rs : List Routine) : Option Nat :=
  rs.findSome? fun r => r.body.firstDepth signatures key (some ⟨r.name, r.params⟩) 0

end Assembly

namespace Sharing

end Sharing

/-! ## Programs -/

theorem Point.HasSite.lasting {key : String}
    {r : Register} (h : P.HasSite table σ) (hP : Lasting key r P.bindings.registers) :
    Lasting key r σ.before.registers ∧ Lasting key r σ.after.registers := by
  have hbefore : Lasting key r σ.before.registers :=
    hP.since h.since_point.2
  exact ⟨hbefore, hbefore.since h.framed.since⟩

namespace Assembled

variable (a : Assembled code image)

/-- How many blocks are open where functions first mention the key. -/
def firstDepth (key : String) : Option Nat :=
  Assembly.firstDepth a.table.signatures key a.tree.routines

end Assembled

namespace Tied

variable {a : Assembled code image} {l : Linked image}
variable {turns : List Turn} {key : String}

end Tied

end ImpMachine
