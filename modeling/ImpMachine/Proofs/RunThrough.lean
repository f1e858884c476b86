import ImpMachine.Proofs.CallFrame
import ImpMachine.Proofs.Segments

/-!
# Running code through

A run comes to the inside of a run of statements by its first instruction (`Linked.exists_entry`),
and it stays there, and in the calls made from there, until it is just behind (`Linked.through`).
What changes on the way is set by the code itself or by functions that its calls reach.
-/

namespace ImpMachine

open Assembly Linear List

variable {u s v : Session} {code : Code} {pc base offset : Nat} {config : RunConfig}
variable {ok : Session → Prop} {image : Image} {level : String → Nat} {who : Option Function}
variable {body : Shape}

/-! ## Runs -/

namespace Session

/-- Successful steps from one session to a later one, each taken in a session with the property. -/
inductive While (config : RunConfig) (code : Code) (ok : Session → Prop) (s : Session) :
    Session → Prop where
  | refl : While config code ok s s
  | step {t u : Session} : While config code ok s t → ok t → t.isActive code = true →
      t.step config code = (u, .ok ()) → While config code ok s u

/-- A run from the start comes to the session by successful steps. -/
abbrev Runs (config : RunConfig) (code : Code) (s : Session) : Prop :=
  While config code (fun _ => True) .start s

/-- The session `v` is in the code between the offsets, or in a call made since `s`. -/
def Stays (offset stop : Nat) (s v : Session) : Prop :=
  s.machine.calls.length < v.machine.calls.length ∨
    v.machine.calls = s.machine.calls ∧ offset ≤ v.machine.pc ∧ v.machine.pc < stop

variable {ok' : Session → Prop} {t : Session}

theorem While.mono (h : While config code ok s t) (hok : ∀ v, ok v → ok' v) :
    While config code ok' s t := by
  induction h with
  | refl => exact .refl
  | step _ hv hactive hstep ih => exact ih.step (hok _ hv) hactive hstep

/-- What is reached from a reachable session is reachable. -/
theorem While.reachable (h : While config code ok s t) (hs : Reachable config code s) :
    Reachable config code t := by
  induction h with
  | refl => exact hs
  | step _ _ hactive hstep ih =>
    have hnext := ih.step hactive
    rwa [hstep] at hnext

theorem While.runFor {fuel : Nat} (h : While config code (fun _ => True) s t)
    (hrun : Session.runFor config code fuel t = (u, .unfinished)) :
    While config code (fun _ => True) s u := by
  obtain ⟨last, hlast, heq | heq | ⟨_, _, -, -, heq⟩⟩ := runFor_ends
    (fun _ _ hv hactive hstep => While.step hv trivial hactive hstep) fuel h
  · cases heq.symm.trans hrun
    exact hlast
  · cases heq.symm.trans hrun
  · cases heq.symm.trans hrun

end Session

theorem runs_sessionAfter {steps : Nat}
    (h : (Session.runFor .default code steps .start).2 = .unfinished) :
    Session.Runs .default code (sessionAfter code steps) :=
  Session.While.refl.runFor (Prod.ext rfl h)

/-- The machine goes on at the offset when only those calls are unfinished. -/
inductive Machine.GoesOn (m : Machine) : Nat → List Frame → Prop where
  | top : GoesOn m m.pc m.calls
  | below {frame : Frame} {calls : List Frame} : frame :: calls <:+ m.calls →
      GoesOn m frame.returnTo calls

namespace Linked

variable {l : Linked image} {stop last : Nat} {calls : List Frame}

theorem Placed.at_owner {m : Machine} {whos : List (Option Function)} (h : l.Placed m whos)
    (howner : l.Owner who base body) (hpc : base ≤ m.pc ∧ m.pc < base + body.size) :
    ∃ i starts outer, Instruction.decode image.code m.pc = .ok i ∧
      m.loopStarts = starts ++ outer ∧ body.At base m.pc i starts := by
  cases h with
  | @cons _ _ base' s' _ starts outer _ _ howner' _ hreaches hloops =>
    obtain ⟨-, rfl, rfl⟩ := howner.unique howner' ⟨hpc.1, Nat.le_of_lt hpc.2⟩ hreaches.bounds
    rcases hreaches with ⟨i, hat⟩ | ⟨heq, -⟩
    · exact ⟨i, starts, outer, howner.decode.1 _ _ _ hat, hloops, hat⟩
    · dsimp only at heq
      omega

/-! ## Coming in -/

theorem goesOn_step (howner : l.Owner who base body) (henters : body.Enters base offset stop last)
    (hbounds : base ≤ offset ∧ last ≤ base + body.size + 1)
    (hv : Session.Reachable config image.code v) (hactive : v.isActive image.code = true)
    (hstep : v.step config image.code = (u, .ok ())) (hrunning : u.machine.status = .running)
    (h : u.machine.GoesOn pc calls) (hpc : offset < pc ∧ pc < last) :
    v.machine.calls = calls ∧ offset ≤ v.machine.pc ∧ v.machine.pc < stop ∨
      calls.length < v.machine.calls.length ∧ v.machine.GoesOn pc calls := by
  obtain ⟨who', rest, hplaced, -⟩ := l.inside_of_running hv (Session.isActive_iff.1 hactive).1
  obtain ⟨-, i, hdecode, -, rfl⟩ := Session.step_eq_ok_iff.1 hstep
  change (v.machine.execute image.code.length i).GoesOn pc calls at h
  change (v.machine.execute image.code.length i).status = .running at hrunning
  -- frames that were there before the step
  have hbelow {frame : Frame} {calls : List Frame} (hframe : frame :: calls <:+ v.machine.calls) :
      calls.length < v.machine.calls.length ∧ v.machine.GoesOn frame.returnTo calls :=
    ⟨hframe.length_le, .below hframe⟩
  by_cases hret : i = .ret
  · subst hret
    cases hcalls : v.machine.calls with
    | nil =>
      rw [Machine.execute_ret_of_nil _ hcalls] at hrunning
      cases hrunning
    | cons frame calls =>
      rw [Machine.execute_ret_of_cons _ hcalls] at h
      rw [hcalls] at hbelow
      cases h with
      | top => exact .inr (hbelow (suffix_refl _))
      | below hframe => exact .inr (hbelow (hframe.trans (suffix_cons _ _)))
  rcases hplaced.exists_at hdecode with
    ⟨base', body', starts, outer, howner', hloops, hat⟩ | rfl | hi
  · by_cases hcall : ∃ addr, i = .call addr
    · obtain ⟨addr, rfl⟩ := hcall
      obtain ⟨f, t, -, -, -, hcalled⟩ := howner'.exists_called hat
      cases h with
      | top =>
        -- a function is entered at its first offset
        change offset < addr.toNat ∧ addr.toNat < last at hpc
        obtain ⟨-, heq, -⟩ := howner.unique hcalled
          (show base ≤ addr.toNat ∧ addr.toNat ≤ base + body.size from ⟨by omega, by omega⟩)
          ⟨Nat.le_refl _, Nat.le_add_right _ _⟩
        omega
      | below hframe =>
        rcases suffix_cons_iff.1 hframe with heq | hframe
        · obtain ⟨rfl, rfl⟩ := List.cons.inj heq
          change offset < v.machine.pc + 2 ∧ v.machine.pc + 2 < last at hpc
          have hmoves : Instruction.Moves (.call addr) v.machine.pc (starts ++ [])
            (v.machine.pc + 2) (starts ++ []) := .plain trivial
          obtain ⟨-, rfl, rfl⟩ := howner.unique howner' ⟨by omega, by omega⟩
            (hat.moves_bounds howner'.fits hmoves)
          exact .inl ⟨rfl, henters hat hmoves hpc.1 hpc.2⟩
        · exact .inr (hbelow hframe)
    have hother : ∀ addr, i ≠ .call addr := fun addr heq => hcall ⟨addr, heq⟩
    have hmoves := hat.moves_execute hloops hother hret image.code.length
    have hcalls : (v.machine.execute image.code.length i).calls = v.machine.calls :=
      Machine.calls_execute_of_ne _ hother hret
    cases h with
    | top =>
      obtain ⟨-, rfl, rfl⟩ := howner.unique howner' ⟨by omega, by omega⟩
        (hat.moves_bounds howner'.fits hmoves)
      exact .inl ⟨hcalls.symm, henters hat hmoves hpc.1 hpc.2⟩
    | below hframe => exact .inr (hbelow (hcalls ▸ hframe))
  · cases hrunning
  · exact (hret hi).elim

/-- **A run enters a stretch of code by its first instruction.** -/
theorem exists_entry (howner : l.Owner who base body) (henters : body.Enters base offset stop last)
    (hbounds : base ≤ offset ∧ stop ≤ last ∧ last ≤ base + body.size + 1)
    (hu : Session.While config image.code ok .start u) (hrunning : u.machine.status = .running)
    (h : u.machine.GoesOn pc calls) (hpc : offset < pc ∧ pc < last) :
    ∃ s, Session.While config image.code ok .start s ∧ s.machine.pc = offset ∧
      s.machine.calls = calls ∧
      Session.While config image.code (fun v => ok v ∧ s.Stays offset stop v) s u := by
  induction hu generalizing pc calls with
  | refl =>
    cases h with
    | top => cases hpc.1
    | below hframe => cases suffix_nil.1 hframe
  | @step v u hv hok hactive hstep ih =>
    have hvrunning := (Session.isActive_iff.1 hactive).1
    rcases goesOn_step howner henters ⟨hbounds.1, hbounds.2.2⟩ (hv.reachable .start) hactive
      hstep hrunning h hpc with ⟨rfl, hlower, hupper⟩ | ⟨hdeeper, hgoes⟩
    · have hstays {s : Session} (hs : s.machine.calls = v.machine.calls) : s.Stays offset stop v :=
        .inr ⟨hs.symm, hlower, hupper⟩
      rcases Nat.eq_or_lt_of_le hlower with heq | hlt
      · exact ⟨v, hv, heq.symm, rfl, .step .refl ⟨hok, hstays rfl⟩ hactive hstep⟩
      · obtain ⟨s, hs, hspc, hcalls, hthrough⟩ :=
          ih hvrunning .top ⟨hlt, Nat.lt_of_lt_of_le hupper hbounds.2.1⟩
        exact ⟨s, hs, hspc, hcalls, hthrough.step ⟨hok, hstays hcalls⟩ hactive hstep⟩
    · obtain ⟨s, hs, hspc, rfl, hthrough⟩ := ih hvrunning hgoes hpc
      exact ⟨s, hs, hspc, rfl, hthrough.step ⟨hok, .inl hdeeper⟩ hactive hstep⟩

end Linked

/-! ## Staying -/

namespace Linked

variable (l : Linked image)

/-- The register is set by code of the body, or by other functions that calls of the given ones
reach. -/
def Touches (who : Option Function) (callees : List String) (code : List Instruction)
    (r : Register) : Prop :=
  Sets code r ∨ ∃ callee ∈ callees, ∃ (g : Function) (base : Nat) (body : Shape),
    CallReach (l.routines.map Prod.fst) callee g.name ∧ some g ≠ who ∧
      l.Owner (some g) base body ∧ Sets body.instructions r

/-- The later session is in the code, and not in a call that the code made. -/
structure Level (who : Option Function) (callees : List String) (t : Shape) (offset : Nat)
    (s u : Session) : Prop where
  calls_eq : u.machine.calls = s.machine.calls
  bounds : u.machine.status = .running →
    offset ≤ u.machine.pc ∧ u.machine.pc ≤ offset + t.size
  touches : ∀ r : Register, u.machine.get r.byte ≠ s.machine.get r.byte →
    l.Touches who callees t.instructions r

/-- The later session is in a call that the code made. -/
def Below (config : RunConfig) (who : Option Function) (callees : List String) (t : Shape)
    (offset : Nat) (s u : Session) : Prop :=
  s.machine.calls.length < u.machine.calls.length ∧
    ∃ (v : Session) (callee : String) (addr : UInt8),
      Session.Reachable config image.code v ∧ v.isActive image.code = true ∧
      l.Level who callees t offset s v ∧ v.machine.pc + 2 ≤ offset + t.size ∧
      Instruction.decode image.code v.machine.pc = .ok (.call addr) ∧ callee ∈ callees ∧
      l.table.addresses.lookup callee = some addr.toNat ∧ Session.Within config image.code v u

variable {l} {callees : List String} {t : Shape}

/-- A step from the code itself. -/
theorem Level.step (h : l.Level who callees t offset s v) (howner : l.Owner who base body)
    (hcontains : body.Contains base t offset) (hall : t.All (Lawful l.table callees))
    (hv : Session.Reachable config image.code v) (hpc : v.machine.pc < offset + t.size)
    (hactive : v.isActive image.code = true) (hstep : v.step config image.code = (u, .ok ())) :
    l.Level who callees t offset s u ∨ u.machine.calls.length < s.machine.calls.length ∨
      l.Below config who callees t offset s u := by
  have hrunning := (Session.isActive_iff.1 hactive).1
  obtain ⟨_, _, hplaced, -⟩ := l.inside_of_running hv hrunning
  have hbounds := h.bounds hrunning
  have hrun := hcontains.bounds
  obtain ⟨i, starts, outer, hdecode, hloops, hat⟩ :=
    hplaced.at_owner howner (show base ≤ v.machine.pc ∧ v.machine.pc < base + body.size by omega)
  obtain ⟨starts', around, hinner, rfl⟩ := hcontains.restrict hat ⟨hbounds.1, hpc⟩
  obtain ⟨-, j, hj, -, hu⟩ := Session.step_eq_ok_iff.1 hstep
  obtain rfl : i = j := Except.ok.inj (hdecode.symm.trans hj)
  have hmachine : u.machine = v.machine.execute image.code.length i := by
    rw [hu]
    rfl
  have htouches (r : Register) (hr : u.machine.get r.byte ≠ s.machine.get r.byte) :
      l.Touches who callees t.instructions r := by
    by_cases htarget : i.target? = some r.byte
    · exact .inl ⟨i, hinner.mem_instructions, htarget⟩
    · rw [hmachine, Machine.get_execute_of_ne _ htarget] at hr
      exact h.touches r hr
  -- a return halts or leaves the level, a call goes below it and any other step stays in it
  by_cases hret : i = .ret
  · subst hret
    cases hcalls : v.machine.calls with
    | nil =>
      rw [Machine.execute_ret_of_nil _ hcalls] at hmachine
      refine .inl ⟨?_, fun hrun => ?_, htouches⟩
      · rw [hmachine]
        exact h.calls_eq
      · rw [hmachine] at hrun
        cases hrun
    | cons frame calls =>
      rw [Machine.execute_ret_of_cons _ hcalls] at hmachine
      refine .inr (.inl ?_)
      rw [← h.calls_eq, hcalls, hmachine]
      exact Nat.lt_succ_self _
  by_cases hcall : ∃ addr, i = .call addr
  · obtain ⟨addr, rfl⟩ := hcall
    obtain ⟨callee, hcallee, hlookup⟩ := (hinner.of_all trivial hall).2 addr rfl
    have hbehind := hinner.moves_bounds hcontains.fits
      (.plain trivial : Instruction.Moves (.call addr) v.machine.pc (starts' ++ []) _ _)
    refine .inr (.inr ⟨?_, v, callee, addr, hv, hactive, h, hbehind.2, hdecode, hcallee, hlookup,
      .enter hstep⟩)
    rw [hmachine, ← h.calls_eq]
    exact Nat.lt_succ_self _
  have hother : ∀ addr, i ≠ .call addr := fun addr heq => hcall ⟨addr, heq⟩
  have hmoves := hat.moves_execute hloops hother hret image.code.length
  rw [append_assoc] at hmoves
  have hnext := hinner.moves_bounds hcontains.fits hmoves
  have hcalls : u.machine.calls = v.machine.calls :=
    hmachine ▸ Machine.calls_execute_of_ne _ hother hret
  rw [← hmachine] at hnext
  exact .inl ⟨hcalls.trans h.calls_eq, fun _ => hnext, htouches⟩

theorem Owner.isSome_find? {g : Function} (h : l.Owner (some g) base body) :
    (find? (l.routines.map Prod.fst) g.name).isSome := by
  cases h with
  | routine h =>
    exact List.find?_isSome.2 ⟨g, mem_map_of_mem (mem_of_getElem? h), beq_self_eq_true _⟩

/-- A step inside a call that the code made. -/
theorem Below.step (h : l.Below config who callees t offset s v) (hlevels : l.Levels level)
    (howner : l.Owner who base body) (hcontains : body.Contains base t offset)
    (hactive : v.isActive image.code = true) (hstep : v.step config image.code = (u, .ok ())) :
    l.Level who callees t offset s u ∨ l.Below config who callees t offset s u := by
  obtain ⟨hdeeper, w, callee, addr, hw, hwactive, hlevel, hbehind, hdecode, hcallee, hlookup,
    hwithin⟩ := h
  rw [← hlevel.calls_eq] at hdeeper
  have hwithin' := hwithin.step hdeeper hactive hstep
  obtain ⟨top, rest, hplaced, -⟩ := l.inside_of_running hw (Session.isActive_iff.1 hwactive).1
  obtain ⟨f, hf, hlt, hcalled⟩ := Linked.within_call hlevels hw hwactive hplaced hdecode
  obtain ⟨hplace, hchanged⟩ := hcalled u hwithin'
  rcases hplace with ⟨inner, fs, hcalls, -⟩ | ⟨hpc, hcalls, -⟩
  · refine .inr ⟨?_, w, callee, addr, hw, hwactive, hlevel, hbehind, hdecode, hcallee, hlookup,
      hwithin'⟩
    rw [← hlevel.calls_eq, hcalls, length_append, length_cons]
    omega
  · have hpos := (hlevel.bounds (Session.isActive_iff.1 hwactive).1).1
    have hbounds := hcontains.bounds
    refine .inl ⟨hcalls.trans hlevel.calls_eq, fun _ => by omega, fun r hr => ?_⟩
    by_cases hsame : u.machine.get r.byte = w.machine.get r.byte
    · exact hlevel.touches r (hsame ▸ hr)
    · obtain ⟨g, base', body', hreach, hgowner, hsets⟩ := hchanged r hsame
      -- the body that calls is below the level of all that is reached
      have hne : some g ≠ who := by
        rintro rfl
        obtain ⟨base'', body'', htop, hholds⟩ := hplaced.holds
        obtain ⟨rfl, -, -⟩ := howner.unique htop ⟨by omega, by omega⟩ hholds
        have hcaller : level g.name < level f.name := hlt _ mem_cons_self
        have := level_le_of_reaches hlevels hreach hgowner.isSome_find?
        omega
      -- only one function stands at the address of the call
      obtain ⟨f₁, t₁, hname₁, -, howner₁⟩ := exists_owner_of_lookup hf
      obtain ⟨f₂, t₂, hname₂, -, howner₂⟩ := exists_owner_of_lookup hlookup
      obtain ⟨heq, -, -⟩ := howner₁.unique howner₂ ⟨Nat.le_refl _, Nat.le_add_right _ _⟩
        ⟨Nat.le_refl _, Nat.le_add_right _ _⟩
      cases heq
      exact .inr ⟨callee, hcallee, g, base', body', hname₂ ▸ hname₁ ▸ hreach, hne, hgowner, hsets⟩

/-- **Code is run through from its first instruction on.** -/
theorem through (hlevels : l.Levels level) (howner : l.Owner who base body)
    (hcontains : body.Contains base t offset) (hall : t.All (Lawful l.table callees))
    (hs : Session.Reachable config image.code s) (hpc : s.machine.pc = offset)
    (hu : Session.While config image.code
      (fun v => ok v ∧ s.Stays offset (offset + t.size) v) s u) :
    l.Level who callees t offset s u ∨ u.machine.calls.length < s.machine.calls.length ∨
      l.Below config who callees t offset s u := by
  induction hu with
  | refl => exact .inl ⟨rfl, fun _ => by omega, fun r hr => (hr rfl).elim⟩
  | @step v u hv hstays hactive hstep ih =>
    rcases ih with hlevel | hshort | hbelow
    · refine hlevel.step howner hcontains hall (hv.reachable hs) ?_ hactive hstep
      rcases hstays.2 with hdeeper | ⟨-, -, hlt⟩
      · rw [hlevel.calls_eq] at hdeeper
        omega
      · exact hlt
    · rcases hstays.2 with hdeeper | ⟨heq, -⟩
      · omega
      · rw [heq] at hshort
        omega
    · exact (hbelow.step hlevels howner hcontains hactive hstep).imp_right .inr

/-- **What a run of code changes** while the calls are those at its start. -/
theorem touches_of_through (hlevels : l.Levels level) (howner : l.Owner who base body)
    (hcontains : body.Contains base t offset) (hall : t.All (Lawful l.table callees))
    (hs : Session.Reachable config image.code s) (hpc : s.machine.pc = offset)
    (hu : Session.While config image.code (fun v => ok v ∧ s.Stays offset (offset + t.size) v) s u)
    (hcalls : u.machine.calls = s.machine.calls) {r : Register}
    (hr : u.machine.get r.byte ≠ s.machine.get r.byte) :
    l.Touches who callees t.instructions r := by
  rcases through hlevels howner hcontains hall hs hpc hu with hlevel | hshort | hbelow
  · exact hlevel.touches r hr
  · rw [hcalls] at hshort
    omega
  · have hdeeper := hbelow.1
    rw [hcalls] at hdeeper
    omega

end Linked

end ImpMachine
