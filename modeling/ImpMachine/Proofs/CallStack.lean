import ImpMachine.Proofs.LoopStack
import ImpMachine.Proofs.Ownership

/-!
# Who is on the call stack

Every offset of assembled code belongs to one body (`Owner.unique`). From a call to the matching
return only bodies come on top of the stack that the called function reaches (`Deep`), so only their
code runs: the frames below are as they were, and a register that changed is one that the code of
such a function sets (`within_call`).
-/

namespace ImpMachine

open Assembly List

variable {r : Register} {i : Instruction} {codeLength base pc : Nat} {callee : String}
variable {addr : UInt8} {config : RunConfig} {code : Code} {m : Machine} {image : Image}
variable {level : String → Nat} {who : Option Function} {rest : List (Option Function)}

/-! ## One instruction -/

namespace Machine

theorem get_set_of_ne {dst : UInt8} (v : Int64) (h : dst ≠ r.byte) :
    (m.set dst v).get r.byte = m.get r.byte := by
  have hne : dst.toNat ≠ r.val := by
    intro heq
    rw [← r.byte_toNat] at heq
    exact h (UInt8.toNat_inj.1 heq)
  simp [get, set, hne]

/-- The machine halts at a stop, and at a return without a call. -/
theorem eq_of_status_execute (hrunning : m.status = .running)
    (h : (m.execute codeLength i).status = .halted) : i = .halt ∨ i = .ret ∧ m.calls = [] := by
  have hne : m.status ≠ .halted := by simp [hrunning]
  cases i with
  | halt => exact .inl rfl
  | mov | arith | out | call | jump | endIf => exact (hne h).elim
  | ret =>
    refine .inr ⟨rfl, ?_⟩
    cases hcalls : m.calls with
    | nil => rfl
    | cons frame calls =>
      rw [execute_ret_of_cons codeLength hcalls] at h
      exact (hne h).elim
  | ifZero reg skip | whileLoop reg skip =>
    simp only [execute] at h
    split at h <;> exact (hne h).elim
  | endWhile =>
    simp only [execute, endLoop] at h
    split at h <;> exact (hne h).elim

/-- An instruction changes at most the register that it writes. -/
theorem get_execute_of_ne (codeLength : Nat) (h : i.target? ≠ some r.byte) :
    (m.execute codeLength i).get r.byte = m.get r.byte := by
  cases i with
  | mov dst v => exact get_set_of_ne _ fun heq => h (congrArg some heq)
  | arith op dst a b => exact get_set_of_ne _ fun heq => h (congrArg some heq)
  | out | call | jump | endIf | halt => rfl
  | ret =>
    simp only [execute, ret]
    split <;> rfl
  | ifZero reg skip | whileLoop reg skip =>
    simp only [execute]
    split <;> rfl
  | endWhile =>
    simp only [execute, endLoop]
    split <;> rfl

end Machine

theorem Shape.At.mem_instructions {s : Shape} {starts : List Nat}
    (h : s.At base pc i starts) : i ∈ s.instructions := by
  obtain ⟨front, back, heq, -⟩ := mem_place_iff.1 h.mem_place
  rw [heq]
  exact mem_append_right _ mem_cons_self

/-- The offsets at which the machine and its unfinished calls go on, innermost first. -/
def Machine.offsets (m : Machine) : List Nat := m.pc :: m.calls.map (·.returnTo)

/-! ## Reaching functions -/

namespace Assembly

/-- One function mentions a call of the other. -/
def Calls (functions : List Function) (caller callee : String) : Prop :=
  ∃ f, find? functions caller = some f ∧ callee ∈ f.callees

/-- Calls lead from one function to the other. Every function reaches itself. -/
def CallReach (functions : List Function) : String → String → Prop :=
  Relation.ReflTransGen (Calls functions)

end Assembly

namespace Linked

variable (l : Linked image)

/-! ## Bodies -/

/-- The offset is one of the body's, or just behind it. -/
def Holds (who : Option Function) (pc : Nat) : Prop :=
  ∃ base s, l.Owner who base s ∧ base ≤ pc ∧ pc ≤ base + s.size

variable {l} {base' : Nat} {s s' : Shape} {who' : Option Function}

theorem size_take_lt {k j : Nat} {f : Function} (h : l.routines[k]? = some (f, s)) (hlt : k < j) :
    (routinesShape (l.routines.take k)).size + s.size + 1 ≤
      (routinesShape (l.routines.take j)).size := by
  have htake : l.routines.take j =
      l.routines.take k ++ (f, s) :: (l.routines.take j).drop (k + 1) := by
    obtain ⟨hk, hget⟩ := List.getElem?_eq_some_iff.1 h
    have hlength : k < (l.routines.take j).length := by
      rw [length_take]
      omega
    have hsplit := (take_append_drop k (l.routines.take j)).symm
    rw [drop_eq_getElem_cons hlength, take_take, Nat.min_eq_left (Nat.le_of_lt hlt),
      getElem_take, hget] at hsplit
    exact hsplit
  have hret : retShape.size = 1 := rfl
  rw [htake, routinesShape_append, routinesShape, Shape.size_append, Shape.size_append,
    Shape.size_append, hret]
  omega

/-- **An offset has one owner.** -/
theorem Owner.unique (h : l.Owner who base s) (h' : l.Owner who' base' s')
    (hpc : base ≤ pc ∧ pc ≤ base + s.size) (hpc' : base' ≤ pc ∧ pc ≤ base' + s'.size) :
    who = who' ∧ base = base' ∧ s = s' := by
  cases h with
  | main =>
    cases h' with
    | main => exact ⟨rfl, rfl, rfl⟩
    | routine h' => omega
  | @routine k f _ h =>
    cases h' with
    | main => omega
    | @routine j g _ h' =>
      rcases Nat.lt_trichotomy k j with hlt | rfl | hlt
      · have hsize := size_take_lt h hlt
        omega
      · rw [h] at h'
        cases h'
        exact ⟨rfl, rfl, rfl⟩
      · have hsize := size_take_lt h' hlt
        omega

variable {whos : List (Option Function)}

theorem Chain.exists_holds {frames : List Frame} {loops : List Nat} (h : l.Chain frames loops whos)
    {frame : Frame} (hframe : frame ∈ frames) : ∃ who ∈ whos, l.Holds who frame.returnTo := by
  induction h with
  | nil => cases hframe
  | cons howner _ hreaches _ _ _ ih =>
    rcases mem_cons.1 hframe with rfl | hframe
    · exact ⟨_, mem_cons_self, _, _, howner, hreaches.bounds⟩
    · obtain ⟨who, hwho, hholds⟩ := ih hframe
      exact ⟨who, mem_cons_of_mem _ hwho, hholds⟩

theorem Placed.exists_holds (h : l.Placed m whos) (hpc : pc ∈ m.offsets) :
    ∃ who ∈ whos, l.Holds who pc := by
  rcases mem_cons.1 hpc with rfl | hpc
  · exact Chain.exists_holds h mem_cons_self
  · obtain ⟨frame, hframe, rfl⟩ := mem_map.1 hpc
    exact Chain.exists_holds h (mem_cons_of_mem _ hframe)

theorem Placed.holds (h : l.Placed m (who :: rest)) : l.Holds who m.pc := by
  cases h with
  | cons howner _ hreaches => exact ⟨_, _, howner, hreaches.bounds⟩

/-- The instruction at hand is in the body on top, or is the stop or return behind it. -/
theorem Placed.exists_at (h : l.Placed m (who :: rest))
    (hdecode : Instruction.decode image.code m.pc = .ok i) :
    (∃ base s starts outer, l.Owner who base s ∧ m.loopStarts = starts ++ outer ∧
      s.At base m.pc i starts) ∨ i = .halt ∨ i = .ret := by
  obtain ⟨base, s, starts, outer, howner, -, hloops, -, hat | ⟨-, hcases⟩⟩ := h.exists_owner hdecode
  · exact .inl ⟨base, s, starts, outer, howner, hloops, hat⟩
  · exact .inr (hcases.imp_left And.left)

/-- A register that an instruction changes is set by the body on top. -/
theorem Placed.sets_of_get_ne (h : l.Placed m (who :: rest))
    (hdecode : Instruction.decode image.code m.pc = .ok i)
    (hchanged : (m.execute codeLength i).get r.byte ≠ m.get r.byte) :
    ∃ base s, l.Owner who base s ∧ Sets s.instructions r := by
  have htarget : i.target? = some r.byte := by
    by_contra hne
    exact hchanged (Machine.get_execute_of_ne codeLength hne)
  rcases h.exists_at hdecode with ⟨base, s, _, _, howner, -, hat⟩ | rfl | rfl
  · exact ⟨base, s, howner, i, hat.mem_instructions, htarget⟩
  · cases htarget
  · cases htarget

/-- Calls lead to higher levels. -/
theorem level_le_of_reaches (hlevels : l.Levels level) {name : String}
    (h : CallReach (l.routines.map Prod.fst) callee name)
    (hname : (find? (l.routines.map Prod.fst) name).isSome) : level callee ≤ level name := by
  induction h with
  | refl => exact Nat.le_refl _
  | tail _ hcall ih =>
    obtain ⟨f, hfind, hmem⟩ := hcall
    exact Nat.le_of_lt (Nat.lt_of_le_of_lt (ih (by rw [hfind]; rfl))
      ((hlevels _ _ hfind).2.2 _ hmem hname))

/-! ## Inside a call -/

variable (l) in
/-- A machine between a call of the function, made at `m` with these bodies on the stack, and its
return. Functions that the callee reaches are on top of the caller. -/
def Deep (callee : String) (m : Machine) (whos : List (Option Function)) (t : Machine) : Prop :=
  ∃ (inner : List Frame) (fs : List Function),
    t.calls = inner ++ ⟨m.pc + 2, m.loops.length⟩ :: m.calls ∧ fs.length = inner.length + 1 ∧
      l.Placed t (fs.map some ++ whos) ∧
      ∀ f ∈ fs, CallReach (l.routines.map Prod.fst) callee f.name

namespace Deep

variable {t : Machine}

/-- Inside a call the machine does not halt. -/
theorem not_halted (h : l.Deep callee m whos t) (hrunning : t.status = .running)
    (hdecode : Instruction.decode image.code t.pc = .ok i) (codeLength : Nat) :
    (t.execute codeLength i).status ≠ .halted := by
  obtain ⟨inner, fs, hcalls, -, hplaced, -⟩ := h
  have hne : t.calls ≠ [] := by simp [hcalls]
  obtain ⟨who, rest, hwhos⟩ := hplaced.exists_cons
  rw [hwhos] at hplaced
  intro hhalted
  rcases Machine.eq_of_status_execute hrunning hhalted with rfl | ⟨-, hnil⟩
  · exact hne (hplaced.stop hdecode).2
  · exact hne hnil

/-- **One instruction inside a call** stays inside it, or comes just behind the call. -/
theorem execute (h : l.Deep callee m whos t) (hrunning : t.status = .running)
    (hdecode : Instruction.decode image.code t.pc = .ok i) (codeLength : Nat) :
    l.Deep callee m whos (t.execute codeLength i) ∨
      (t.execute codeLength i).pc = m.pc + 2 ∧ (t.execute codeLength i).calls = m.calls := by
  have hgoes := h.not_halted hrunning hdecode codeLength
  obtain ⟨inner, fs, hcalls, hlength, hplaced, hreach⟩ := h
  obtain ⟨f, fs, rfl⟩ := exists_cons_of_length_eq_add_one hlength
  obtain ⟨whos', hshifts, hnext⟩ := (hplaced.execute hdecode codeLength).resolve_left hgoes
  cases hshifts with
  | stay hcall hret =>
    refine .inl ⟨inner, f :: fs, ?_, hlength, hnext, hreach⟩
    rw [Machine.calls_execute_of_ne codeLength hcall hret, hcalls]
  | @call addr g who rest hwhos hcallee =>
    refine .inl ⟨⟨t.pc + 2, t.loops.length⟩ :: inner, g :: f :: fs, ?_, ?_, hnext, ?_⟩
    · rw [cons_append, ← hcalls]
      rfl
    · rw [length_cons, hlength, length_cons]
    · obtain ⟨rfl, -⟩ := List.cons.inj hwhos
      have hf := hreach f mem_cons_self
      exact forall_mem_cons.2
        ⟨hf.tail ⟨f, Chain.found hplaced mem_cons_self, hcallee⟩, hreach⟩
  | @ret who rest hwhos =>
    obtain ⟨-, rfl⟩ := List.cons.inj hwhos
    cases inner with
    | nil =>
      rw [Machine.execute_ret_of_cons codeLength hcalls]
      exact .inr ⟨rfl, rfl⟩
    | cons frame inner =>
      refine .inl ⟨inner, fs, ?_, ?_, hnext, fun g hg => hreach g (mem_cons_of_mem _ hg)⟩
      · rw [Machine.execute_ret_of_cons codeLength hcalls]
        rfl
      · simpa using hlength

end Deep

theorem Inside.loops_eq_of_returned {t : Machine} (ht : l.Inside t whos)
    (hm : l.Inside m (who :: rest))
    (hdecode : Instruction.decode image.code m.pc = .ok (.call addr))
    (hpc : t.pc = m.pc + 2) (hcalls : t.calls = m.calls) : t.loops = m.loops := by
  have hbehind : l.Inside (m.advance (.call addr)) (who :: rest) := ⟨hm.1.advance_call hdecode, hm.2⟩
  have hloops : m.loops = loopsAround l.listing (⟨m.pc + 2, m.loops.length⟩ :: m.calls) :=
    hbehind.loops_eq
  rw [ht.loops_eq, hloops, hpc, hcalls]
  rfl

end Linked

/-! ## Runs of a call -/

/-- The sessions from a call until it has returned: the one after the call, and later ones as long
as more calls are unfinished than before. -/
inductive Session.Within (config : RunConfig) (code : Code) (s : Session) : Session → Prop where
  | enter {t : Session} : s.step config code = (t, .ok ()) → Within config code s t
  | step {t u : Session} : Within config code s t →
      s.machine.calls.length < t.machine.calls.length → t.isActive code = true →
      t.step config code = (u, .ok ()) → Within config code s u

/-- Takes steps inside a call, until it has returned or the fuel is used up. -/
def Session.runWithin (config : RunConfig) (code : Code) (depth : Nat) : Nat → Session → Session
  | 0, t => t
  | fuel + 1, t =>
    if decide (depth < t.machine.calls.length) && t.isActive code then
      match t.step config code with
      | (u, .ok ()) => runWithin config code depth fuel u
      | _ => t
    else t

/-- Running on until a call returns stays within the call. -/
theorem Session.Within.runWithin {s t : Session} (h : Within config code s t) (fuel : Nat) :
    Within config code s (Session.runWithin config code s.machine.calls.length fuel t) := by
  induction fuel generalizing t with
  | zero => exact h
  | succ fuel ih =>
    unfold Session.runWithin
    split
    · rename_i hcondition
      obtain ⟨hdepth, hactive⟩ := Bool.and_eq_true_iff.1 hcondition
      split
      · rename_i u hstep
        exact ih (h.step (of_decide_eq_true hdepth) hactive hstep)
      · exact h
    · exact h

theorem Session.Within.reachable {s t : Session}
    (h : Within config code s t) (hs : Reachable config code s) (hactive : s.isActive code = true) :
    Reachable config code t := by
  induction h with
  | enter hstep =>
    have hnext := hs.step hactive
    rwa [hstep] at hnext
  | step _ _ hactive hstep ih =>
    have hnext := ih.step hactive
    rwa [hstep] at hnext

namespace Linked

variable {l : Linked image} {s : Session}

/-- **From a call to its return**, only functions run that the callee reaches. -/
theorem within_call (hlevels : l.Levels level) (hs : Session.Reachable config image.code s)
    (hactive : s.isActive image.code = true) (hplaced : l.Placed s.machine (who :: rest))
    (hdecode : Instruction.decode image.code s.machine.pc = .ok (.call addr)) :
    ∃ f : Function, l.table.addresses.lookup f.name = some addr.toNat ∧
      (∀ w ∈ who :: rest, levelOf level w < level f.name) ∧
      ∀ t, Session.Within config image.code s t →
        (l.Deep f.name s.machine (who :: rest) t.machine ∨
          t.machine.pc = s.machine.pc + 2 ∧ t.machine.calls = s.machine.calls ∧
            t.machine.loops = s.machine.loops) ∧
        ∀ r : Register, t.machine.get r.byte ≠ s.machine.get r.byte →
          ∃ (g : Function) (base : Nat) (body : Shape),
            CallReach (l.routines.map Prod.fst) f.name g.name ∧ l.Owner (some g) base body ∧
              Sets body.instructions r := by
  obtain ⟨f, hcallee, hlookup, hcalled⟩ := hplaced.execute_call hdecode
  refine ⟨f, hlookup, (Chain.level_lt hlevels (hcalled 0)).2, fun t ht => ?_⟩
  induction ht with
  | enter hstep =>
    obtain ⟨-, i, hi, -, rfl⟩ := Session.step_eq_ok_iff.1 hstep
    obtain rfl : .call addr = i := Except.ok.inj (hdecode.symm.trans hi)
    refine ⟨.inl ⟨[], [f], rfl, rfl, hcalled image.code.length, ?_⟩, fun r hr => (hr rfl).elim⟩
    exact forall_mem_singleton.2 Relation.ReflTransGen.refl
  | @step t u hwithin hinner hrunning hstep ih =>
    have hu := (hwithin.step hinner hrunning hstep).reachable hs hactive
    obtain ⟨-, i, hi, -, rfl⟩ := Session.step_eq_ok_iff.1 hstep
    obtain ⟨hdeep, hregisters⟩ := ih
    -- the call has not returned before this step, or there would be no step
    have hdeep := hdeep.resolve_right fun hreturned => by
      rw [hreturned.2.1] at hinner
      exact Nat.lt_irrefl _ hinner
    have hstatus := (Session.isActive_iff.1 hrunning).1
    refine ⟨(hdeep.execute hstatus hi image.code.length).imp_right fun hreturned => ?_,
      fun r hr => ?_⟩
    · obtain ⟨_, _, hsinside⟩ := l.inside_of_running hs (Session.isActive_iff.1 hactive).1
      obtain ⟨_, _, huinside⟩ := (l.inside_of_reachable hu).resolve_left
        (hdeep.not_halted hstatus hi image.code.length)
      exact ⟨hreturned.1, hreturned.2,
        huinside.loops_eq_of_returned hsinside hdecode hreturned.1 hreturned.2⟩
    by_cases hbefore : t.machine.get r.byte = s.machine.get r.byte
    · -- this step changed the register, so the function on top sets it
      obtain ⟨inner, fs, -, hlength, htop, hreach⟩ := hdeep
      obtain ⟨g, fs, rfl⟩ := exists_cons_of_length_eq_add_one hlength
      obtain ⟨base, body, howner, hsets⟩ := htop.sets_of_get_ne hi (hbefore ▸ hr)
      exact ⟨g, base, body, hreach g mem_cons_self, howner, hsets⟩
    · exact hregisters r hbefore

end Linked

end ImpMachine
