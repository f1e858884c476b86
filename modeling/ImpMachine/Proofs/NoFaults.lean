import ImpMachine.Proofs.CallOrder
import ImpMachine.Proofs.Linked
import ImpMachine.Proofs.Position

/-!
# Assembled code never faults

The machine is always in the top-level code or in the body of a function (`Owner`), and so is every
call that has not returned, each inside loops of its own. So the machine and its unfinished calls
name a stack of bodies, each of which calls the one above (`Chain`). Functions are on levels, a
callee on a higher one than its caller, so there are never more unfinished calls than functions, and
functions have addresses of a byte. Hence only a step limit can stop a run with a fault
(`assemble_never_faults`).
-/

namespace ImpMachine

open Assembly

theorem length_le_of_addressesFrom {offset bound : Nat} {rs : List (Function × Shape)}
    (h : ∀ label ∈ addressesFrom offset rs, label.2 ≤ bound) : rs.length ≤ bound + 1 - offset := by
  induction rs generalizing offset with
  | nil => exact Nat.zero_le _
  | cons r rs ih =>
    obtain ⟨f, s⟩ := r
    rw [addressesFrom] at h
    obtain ⟨hfirst, hrest⟩ := List.forall_mem_cons.1 h
    have hlen := ih hrest
    simp only [List.length_cons] at hfirst ⊢
    omega

namespace Linked

variable {image : Image} (l : Linked image) {addr : UInt8}

theorem length_routines_le : l.routines.length ≤ maxAddress := by
  have hle := l.addresses_le
  rw [l.addresses_eq] at hle
  have hlen := length_le_of_addressesFrom hle
  omega

/-! ## Bodies -/

/-- The top-level code, or else a function, with the offset and the shape of its code. -/
inductive Owner : Option Function → Nat → Shape → Prop where
  | main : Owner none 0 l.main
  | routine {k : Nat} {f : Function} {s : Shape} : l.routines[k]? = some (f, s) →
      Owner (some f) (l.main.size + 1 + (routinesShape (l.routines.take k)).size) s

/-- The functions that a body mentions. -/
def callees : Option Function → List String
  | none => l.mainCalls
  | some f => f.callees

variable {l} {level : String → Nat} {base pc : Nat} {s : Shape} {who : Option Function}

/-- Behind a body the code returns, and behind the top-level code it stops. -/
theorem Owner.shape_eq (h : l.Owner who base s) :
    ∃ (before : Shape) (stop : Instruction) (hstop : stop.IsPlain) (after : Shape),
      l.shape = before.append (s.append (.plain stop hstop after)) ∧
        before.size = base ∧ (stop = .halt ∧ who = none ∨ stop = .ret) := by
  cases h with
  | main => exact ⟨.nil, .halt, trivial, _, rfl, rfl, .inl ⟨rfl, rfl⟩⟩
  | @routine k f _ hget =>
    obtain ⟨hk, hget⟩ := List.getElem?_eq_some_iff.1 hget
    have hroutines : l.routines = l.routines.take k ++ (f, s) :: l.routines.drop (k + 1) := by
      rw [← hget, ← List.drop_eq_getElem_cons hk, List.take_append_drop]
    refine ⟨l.main.append (.plain .halt trivial (routinesShape (l.routines.take k))), .ret, trivial,
      routinesShape (l.routines.drop (k + 1)), ?_, ?_, .inr rfl⟩
    · rw [l.shape_eq hroutines, Shape.append_assoc s]
      rfl
    · have hhalt : Instruction.halt.width = 1 := rfl
      simp only [Shape.size_append, Shape.size, hhalt]
      omega

theorem Owner.fits (h : l.Owner who base s) : s.Fits := by
  obtain ⟨before, stop, hstop, after, hshape, -, -⟩ := h.shape_eq
  have hfits := l.fits_shape
  rw [hshape] at hfits
  exact (Shape.fits_append.1 (Shape.fits_append.1 hfits).2).1

/-- A body has no stop, and calls functions that it mentions. -/
theorem Owner.all (h : l.Owner who base s) : s.All (Lawful l.table (l.callees who)) := by
  cases h with
  | main => exact l.main_all
  | routine hget => exact l.routines_all _ (List.mem_of_getElem? hget)

/-- The listing around a part of the code. -/
theorem place_shape {before after : Shape} {stop : Instruction} {hstop : stop.IsPlain}
    (hshape : l.shape = before.append (s.append (.plain stop hstop after)))
    (hsize : before.size = base) :
    place 0 l.shape.instructions =
      place 0 before.instructions ++ (place base s.instructions ++
        ⟨base + s.size, stop⟩ :: place (base + s.size + stop.width) after.instructions) := by
  rw [hshape, Shape.instructions_append, Shape.instructions_append, place_append, place_append]
  simp only [Shape.length_encodeAll_instructions, hsize, Nat.zero_add, Shape.instructions, place]

/-- What a body has at its places is read there, and behind it a stop or a return. -/
theorem Owner.decode (h : l.Owner who base s) :
    (∀ pc i starts, s.At base pc i starts → Instruction.decode image.code pc = .ok i) ∧
      ∃ stop, Instruction.decode image.code (base + s.size) = .ok stop ∧
        (stop = .halt ∧ who = none ∨ stop = .ret) := by
  obtain ⟨before, stop, hstop, after, hshape, hsize, hcases⟩ := h.shape_eq
  have hcode : image.code = encodeAll l.shape.instructions := l.code_eq
  have hplace := place_shape hshape hsize
  rw [hcode]
  refine ⟨fun pc i starts hat => ?_, stop, ?_, hcases⟩
  · refine decode_of_mem_place l.valid_instructions (d := ⟨pc, i⟩) ?_
    rw [hplace]
    exact List.mem_append_right _ (List.mem_append_left _ hat.mem_place)
  · refine decode_of_mem_place l.valid_instructions (d := ⟨base + s.size, stop⟩) ?_
    rw [hplace]
    exact List.mem_append_right _ (List.mem_append_right _ (List.mem_cons_self ..))

theorem find?_eq_some {front back : List (Function × Shape)} {f : Function}
    (hroutines : l.routines = front ++ (f, s) :: back) (hfront : ∀ r ∈ front, r.1.name ≠ f.name) :
    find? (l.routines.map Prod.fst) f.name = some f := by
  have hnone : (front.map Prod.fst).find? (·.name == f.name) = none := by
    simpa using fun f s hr => hfront (f, s) hr
  rw [find?, hroutines, List.map_append, List.find?_append, hnone]
  simp

/-- At the address of a function stands its body. -/
theorem exists_owner_of_lookup {callee : String} {addr : Nat}
    (hlookup : l.table.addresses.lookup callee = some addr) :
    ∃ f s, f.name = callee ∧ find? (l.routines.map Prod.fst) callee = some f ∧
      l.Owner (some f) addr s := by
  rw [l.addresses_eq] at hlookup
  obtain ⟨front, f, s, back, hroutines, rfl, hfront, rfl⟩ := lookup_addressesFrom hlookup
  have hget : l.routines[front.length]? = some (f, s) := by simp [hroutines]
  have howner := Owner.routine hget
  rw [hroutines, List.take_left] at howner
  exact ⟨f, s, rfl, find?_eq_some hroutines hfront, howner⟩

/-- A call goes to a function that the caller mentions. -/
theorem Owner.exists_called (howner : l.Owner who base s) {starts : List Nat}
    (hat : s.At base pc (.call addr) starts) :
    ∃ f t, f.name ∈ l.callees who ∧ find? (l.routines.map Prod.fst) f.name = some f ∧
      l.table.addresses.lookup f.name = some addr.toNat ∧ l.Owner (some f) addr.toNat t := by
  obtain ⟨callee, hcallee, hlookup⟩ := (hat.of_all trivial howner.all).2 addr rfl
  obtain ⟨f, t, rfl, hfind, hcalled⟩ := exists_owner_of_lookup hlookup
  exact ⟨f, t, hcallee, hfind, hlookup, hcalled⟩

/-! ## The stack of bodies -/

variable (l) in
/-- The body may stand on top: the top-level code below all, a function, the first of its name, on a
body that calls it. -/
def OnTop : Option Function → List (Option Function) → Prop
  | none, whos => whos = []
  | some f, whos => find? (l.routines.map Prod.fst) f.name = some f ∧
      ∃ who rest, whos = who :: rest ∧ f.name ∈ l.callees who

variable (l) in
/-- Where the machine and each unfinished call go on, innermost first, with the bodies that these
places belong to and the starts of the loops they are in. -/
inductive Chain : List Frame → List Nat → List (Option Function) → Prop where
  | nil : Chain [] [] []
  | cons {frame : Frame} {calls : List Frame} {base : Nat} {s : Shape}
      {loops starts outer : List Nat} {who : Option Function} {whos : List (Option Function)} :
      l.Owner who base s → l.OnTop who whos → s.Reaches base frame.returnTo starts →
      loops = starts ++ outer → frame.loopDepth = loops.length → Chain calls outer whos →
      Chain (frame :: calls) loops (who :: whos)

variable (l) in
/-- The machine goes on in a body, and so do all its callers. -/
def Placed (m : Machine) (whos : List (Option Function)) : Prop :=
  l.Chain (⟨m.pc, m.loops.length⟩ :: m.calls) m.loopStarts whos

variable {m : Machine} {i : Instruction} {whos rest : List (Option Function)}

theorem length_loopStarts (m : Machine) : m.loopStarts.length = m.loops.length := by
  rw [Machine.loopStarts, List.length_map]

theorem placed_initial (status : Status) : l.Placed (.initial status) [none] :=
  .cons .main rfl (l.main.reaches_start 0) rfl rfl .nil

theorem Placed.exists_cons (h : l.Placed m whos) : ∃ who rest, whos = who :: rest := by
  cases h with
  | cons => exact ⟨_, _, rfl⟩

theorem Placed.exists_decode (h : l.Placed m whos) :
    ∃ i, Instruction.decode image.code m.pc = .ok i := by
  cases h with
  | cons howner _ hreaches =>
    obtain ⟨hread, stop, hstop, -⟩ := howner.decode
    rcases hreaches with ⟨i, hat⟩ | ⟨hpc, -⟩
    · exact ⟨i, hread _ _ _ hat⟩
    · exact ⟨stop, (congrArg _ hpc).trans hstop⟩

/-- The body of the machine, and what is read there. -/
theorem Placed.exists_owner (h : l.Placed m (who :: rest))
    (hdecode : Instruction.decode image.code m.pc = .ok i) :
    ∃ base s starts outer, l.Owner who base s ∧ l.OnTop who rest ∧ m.loopStarts = starts ++ outer ∧
      l.Chain m.calls outer rest ∧
      (s.At base m.pc i starts ∨ starts = [] ∧ (i = .halt ∧ who = none ∨ i = .ret)) := by
  cases h with
  | @cons _ _ base s _ starts outer _ _ howner htop hreaches hloops _ hchain =>
    obtain ⟨hread, stop, hstop, hcases⟩ := howner.decode
    refine ⟨base, s, starts, outer, howner, htop, hloops, hchain, ?_⟩
    rcases hreaches with ⟨j, hat⟩ | ⟨hpc, hstarts⟩
    · have hj := hread _ _ _ hat
      rw [show Instruction.decode image.code m.pc = _ from hj] at hdecode
      cases hdecode
      exact .inl hat
    · rw [show m.pc = base + s.size from hpc, hstop] at hdecode
      cases hdecode
      exact .inr ⟨hstarts, hcases⟩

/-- A return leaves the loops of the body for those of the caller. -/
theorem Placed.execute_ret (codeLength : Nat) (h : l.Placed m (who :: rest)) :
    (m.execute codeLength .ret).status = .halted ∨ l.Placed (m.execute codeLength .ret) rest := by
  cases hcalls : m.calls with
  | nil =>
    rw [Machine.execute_ret_of_nil codeLength hcalls]
    exact .inl rfl
  | cons frame calls =>
    rw [Machine.execute_ret_of_cons codeLength hcalls]
    refine .inr ?_
    cases h with
    | @cons _ _ _ _ _ starts outer _ _ _ _ _ hloops _ hchain =>
      rw [hcalls] at hchain
      have hdepth : frame.loopDepth = outer.length := by
        cases hchain with
        | cons _ _ _ _ hdepth => exact hdepth
      have hlength : m.loops.length = starts.length + outer.length := by
        rw [← length_loopStarts, hloops, List.length_append]
      have hdrop : m.loops.length - frame.loopDepth = starts.length := by omega
      have houter : (m.loops.drop starts.length).map (·.start) = outer := by
        rw [List.map_drop]
        change m.loopStarts.drop starts.length = outer
        rw [hloops, List.drop_left]
      have hframe : (⟨frame.returnTo, (m.loops.drop starts.length).length⟩ : Frame) = frame := by
        rw [List.length_drop, hlength, Nat.add_sub_cancel_left, ← hdepth]
      unfold Placed Machine.loopStarts
      simp only [hdrop, houter, hframe]
      exact hchain

/-- A call that is refused leaves the machine behind it, in the same loops. -/
theorem Placed.advance_call (h : l.Placed m (who :: rest))
    (hdecode : Instruction.decode image.code m.pc = .ok (.call addr)) :
    l.Placed (m.advance (.call addr)) (who :: rest) := by
  obtain ⟨base, s, starts, outer, howner, htop, hloops, hchain, hat | ⟨-, ⟨⟨⟩, -⟩ | ⟨⟨⟩⟩⟩⟩ :=
    h.exists_owner hdecode
  obtain ⟨starts', hstarts, hnext⟩ := hat.moves howner.fits
    (.plain trivial : Instruction.Moves (.call addr) m.pc (starts ++ outer) _ _)
  obtain rfl := List.append_cancel_right hstarts
  exact .cons howner htop hnext hloops (length_loopStarts m).symm hchain

/-- A call puts the function that is called on top. -/
theorem Placed.execute_call (h : l.Placed m (who :: rest))
    (hdecode : Instruction.decode image.code m.pc = .ok (.call addr)) :
    ∃ f, f.name ∈ l.callees who ∧ l.table.addresses.lookup f.name = some addr.toNat ∧
      ∀ codeLength, l.Placed (m.execute codeLength (.call addr)) (some f :: who :: rest) := by
  obtain ⟨base, s, starts, outer, howner, -, -, -, hat | ⟨-, ⟨⟨⟩, -⟩ | ⟨⟨⟩⟩⟩⟩ :=
    h.exists_owner hdecode
  obtain ⟨f, t, hcallee, hfind, hlookup, hcalled⟩ := howner.exists_called hat
  exact ⟨f, hcallee, hlookup, fun _ => .cons hcalled ⟨hfind, who, rest, rfl, hcallee⟩
    (t.reaches_start _) rfl (length_loopStarts m).symm (h.advance_call hdecode)⟩

variable (l) in
/-- What an instruction does to the stack of bodies. -/
inductive Shifts (whos : List (Option Function)) : Instruction → List (Option Function) → Prop where
  | stay {i : Instruction} : (∀ addr, i ≠ .call addr) → i ≠ .ret → Shifts whos i whos
  | call {addr : UInt8} {f : Function} {who : Option Function} {rest : List (Option Function)} :
      whos = who :: rest → f.name ∈ l.callees who → Shifts whos (.call addr) (some f :: whos)
  | ret {who : Option Function} {rest : List (Option Function)} : whos = who :: rest →
      Shifts whos .ret rest

/-- **One instruction** leaves the machine halted or placed again. -/
theorem Placed.execute (h : l.Placed m (who :: rest))
    (hdecode : Instruction.decode image.code m.pc = .ok i) (codeLength : Nat) :
    (m.execute codeLength i).status = .halted ∨
      ∃ whos, l.Shifts (who :: rest) i whos ∧ l.Placed (m.execute codeLength i) whos := by
  by_cases hret : i = .ret
  · subst hret
    exact (h.execute_ret codeLength).imp_right fun hrest => ⟨rest, .ret rfl, hrest⟩
  by_cases hcall : ∃ addr, i = .call addr
  · obtain ⟨addr, rfl⟩ := hcall
    obtain ⟨f, hcallee, -, hnext⟩ := h.execute_call hdecode
    exact .inr ⟨_, .call rfl hcallee, hnext codeLength⟩
  have hother : ∀ addr, i ≠ .call addr := fun addr heq => hcall ⟨addr, heq⟩
  obtain ⟨base, s, starts, outer, howner, htop, hloops, hchain, hat | ⟨-, ⟨rfl, -⟩ | hi⟩⟩ :=
    h.exists_owner hdecode
  · obtain ⟨starts', hstarts, hnext⟩ :=
      hat.moves howner.fits (hat.moves_execute hloops hother hret codeLength)
    refine .inr ⟨_, .stay hother hret, .cons howner htop hnext hstarts (length_loopStarts _).symm ?_⟩
    rwa [Machine.calls_execute_of_ne codeLength hother hret]
  · exact .inl rfl
  · exact (hret hi).elim

/-! ## Levels -/

variable (l level) in
/-- All functions have levels from one to their number, below those of the functions called. -/
def Levels : Prop :=
  ∀ name f, find? (l.routines.map Prod.fst) name = some f →
    0 < level name ∧ level name ≤ (l.routines.map Prod.fst).length ∧
      ∀ c ∈ f.callees, (find? (l.routines.map Prod.fst) c).isSome → level name < level c

/-- The level of a body: that of the function, and zero for the top-level code. -/
def levelOf (level : String → Nat) : Option Function → Nat
  | none => 0
  | some f => level f.name

variable {frames : List Frame} {loops : List Nat}

theorem Chain.found (h : l.Chain frames loops whos) {f : Function} (hf : some f ∈ whos) :
    find? (l.routines.map Prod.fst) f.name = some f := by
  induction h with
  | nil => cases hf
  | cons _ htop _ _ _ _ ih =>
    rcases List.mem_cons.1 hf with rfl | hf
    · exact htop.1
    · exact ih hf

/-- Bodies on the stack are on lower levels than those above. -/
theorem Chain.level_lt (hlevels : l.Levels level) (h : l.Chain frames loops (who :: whos)) :
    frames.length ≤ levelOf level who + 1 ∧ ∀ w ∈ whos, levelOf level w < levelOf level who := by
  generalize hwhos : who :: whos = stack at h
  induction h generalizing who whos with
  | nil => cases hwhos
  | @cons _ _ _ _ _ _ _ top below _ htop _ _ _ hchain ih =>
    cases hwhos
    cases top with
    | none =>
      obtain rfl : below = [] := htop
      cases hchain
      simp [levelOf]
    | some f =>
      obtain ⟨hfind, next, rest, rfl, hcallee⟩ := htop
      have hnext : levelOf level next < level f.name := by
        cases next with
        | none => exact (hlevels _ _ hfind).1
        | some g =>
          have hg := hchain.found List.mem_cons_self
          exact (hlevels _ _ hg).2.2 _ hcallee (by rw [hfind]; rfl)
      obtain ⟨hlength, hlt⟩ := ih rfl
      refine ⟨?_, List.forall_mem_cons.2 ⟨hnext, fun w hw => Nat.lt_trans (hlt w hw) hnext⟩⟩
      rw [List.length_cons]
      exact Nat.succ_le_succ (Nat.le_trans hlength hnext)

theorem Placed.length_calls_le (hlevels : l.Levels level) (h : l.Placed m (who :: rest)) :
    m.calls.length ≤ maxAddress := by
  have hlength : m.calls.length ≤ levelOf level who :=
    Nat.le_of_succ_le_succ (Chain.level_lt hlevels h).1
  cases who with
  | none => exact Nat.le_trans hlength (Nat.zero_le _)
  | some f =>
    have hle := (hlevels _ _ (Chain.found h List.mem_cons_self)).2.1
    rw [List.length_map] at hle
    exact Nat.le_trans hlength (Nat.le_trans hle l.length_routines_le)

end Linked

/-- **Assembled code never faults.** Whatever the number of steps, a run with 256 nested calls
allowed ends in a fault only at a step limit. -/
theorem assemble_never_faults {code : List Linear.Instr} {image : Image}
    (h : assemble code = .ok image) (config : RunConfig)
    (hdepth : config.maxCallDepth = RunConfig.default.maxCallDepth) (fuel : Nat) (fault : Fault)
    (hfault : (Session.runFor config image.code fuel .start).2 = .faulted fault) :
    ∃ limit, config.maxSteps = some limit ∧ fault = .stepLimit limit := by
  obtain ⟨l⟩ := exists_linked h
  obtain ⟨level, hlevels⟩ := exists_level_of_checkRecursion l.acyclic
  have hstep : ∀ s s' : Session,
      (s.machine.status = .halted ∨ ∃ who rest, l.Placed s.machine (who :: rest)) →
      s.isActive image.code = true → s.step config image.code = (s', .ok ()) →
      s'.machine.status = .halted ∨ ∃ who rest, l.Placed s'.machine (who :: rest) := by
    intro s s' hs hactive hstep
    obtain ⟨-, i, hdecode, -, rfl⟩ := Session.step_eq_ok_iff.1 hstep
    rcases hs with hs | ⟨who, rest, hs⟩
    · rw [(Session.isActive_iff.1 hactive).1] at hs
      cases hs
    · refine (hs.execute hdecode image.code.length).imp_right ?_
      rintro ⟨whos, -, hnext⟩
      obtain ⟨who, rest, rfl⟩ := hnext.exists_cons
      exact ⟨who, rest, hnext⟩
  have hstart : Session.start.machine.status = .halted ∨
      ∃ who rest, l.Placed Session.start.machine (who :: rest) :=
    .inr ⟨none, [], Linked.placed_initial .running⟩
  obtain ⟨last, hlast, hrun | hrun | ⟨after, fault', hactive, hfail, hrun⟩⟩ :=
    Session.runFor_ends hstep fuel hstart
  · rw [hrun] at hfault
    cases hfault
  · rw [hrun] at hfault
    cases hfault
  · rw [hrun] at hfault
    cases hfault
    rcases hlast with hlast | ⟨who, rest, hlast⟩
    · rw [(Session.isActive_iff.1 hactive).1] at hlast
      cases hlast
    · -- the instruction can be read and a call is not too deep, which leaves the limit
      have hcalls := hlast.length_calls_le hlevels
      obtain ⟨i, hi⟩ := hlast.exists_decode
      rcases Session.step_eq_error hfail with
        ⟨limit, hlimit, rfl, -⟩ | ⟨e, he, -, -⟩ | ⟨addr, -, hdeep, -, -⟩
      · exact ⟨limit, hlimit, rfl⟩
      · rw [hi] at he
        cases he
      · rw [hdepth] at hdeep
        simp only [maxAddress, RunConfig.default] at hcalls hdeep
        omega

/-- A limit of 24 steps stops `countdown` inside its function. -/
theorem assemble_never_faults_countdown : ∃ image, assemble countdown = .ok image ∧
    (Session.runFor ⟨some 24, 256, false⟩ image.code 100 .start).2 = .faulted (.stepLimit 24) ∧
      ∃ limit, some 24 = some limit ∧ Fault.stepLimit 24 = .stepLimit limit := by
  obtain ⟨image, h, hcode⟩ := map_eq_ok.1 code_countdown
  have hfault : (Session.runFor ⟨some 24, 256, false⟩ image.code 100 .start).2 =
      .faulted (.stepLimit 24) := by
    rw [hcode]
    decide +kernel
  exact ⟨image, h, hfault, assemble_never_faults h ⟨some 24, 256, false⟩ rfl 100 _ hfault⟩

end ImpMachine
