import ImpMachine.Code.Verifier
import ImpMachine.Proofs.Encoding
import ImpMachine.Proofs.Runs

/-!
# Accepted code runs on its instructions

Code that the static check accepts never leaves the offsets of its instructions, except to its end
(`verify_sound`). The check reads the code once; the machine also goes back, to the starts of loops
and behind calls. So the invariant `Bounded` is about the offset of the next instruction together
with every offset that the machine has stored.
-/

namespace ImpMachine

open List

variable {is : List Instruction} {d : Decoded} {boundaries : List Nat}

/-! ## Boundaries -/

/-- The offset is one of the placed instructions, or the end of their bytes. -/
def Boundary (is : List Instruction) (p : Nat) : Prop :=
  p ∈ (place 0 is).map (·.offset) ∨ p = (encodeAll is).length

/-- An instruction is placed behind the bytes of those before it. -/
theorem mem_place_iff {offset : Nat} :
    d ∈ place offset is ↔
      ∃ before after, is = before ++ d.instruction :: after ∧
        d.offset = offset + (encodeAll before).length := by
  constructor
  · intro h
    induction is generalizing offset with
    | nil => cases h
    | cons i is ih =>
      rcases mem_cons.1 h with rfl | h
      · exact ⟨[], is, rfl, rfl⟩
      · obtain ⟨before, after, rfl, hoffset⟩ := ih h
        refine ⟨i :: before, after, rfl, ?_⟩
        simp only [encodeAll_cons, length_append, Instruction.length_encode]
        omega
  · rintro ⟨before, after, rfl, hoffset⟩
    rw [place_append, ← hoffset]
    exact mem_append_right _ (mem_cons_self ..)

/-- Behind every placed instruction is a boundary. -/
theorem boundary_stop (h : d ∈ place 0 is) : Boundary is d.stop := by
  obtain ⟨before, after, rfl, hoffset⟩ := mem_place_iff.1 h
  have hstop : d.stop = (encodeAll (before ++ [d.instruction])).length := by
    simp [Decoded.stop, hoffset]
  cases after with
  | nil => exact .inr hstop
  | cons j after =>
    refine .inl (mem_map.2 ⟨⟨d.stop, j⟩, mem_place_iff.2 ?_, rfl⟩)
    exact ⟨before ++ [d.instruction], after, by simp, by simpa using hstop⟩

/-- A placed instruction is read where it stands. -/
theorem decode_of_mem_place (hvalid : ∀ i ∈ is, i.Valid)
    (h : d ∈ place 0 is) : Instruction.decode (encodeAll is) d.offset = .ok d.instruction := by
  obtain ⟨before, after, rfl, hoffset⟩ := mem_place_iff.1 h
  refine Instruction.decode_eq_ok_iff.2 ⟨hvalid _ (by simp), encodeAll after, ?_⟩
  simp [hoffset]

/-- At a boundary before the end a placed instruction is read. -/
theorem exists_decode_of_boundary (hvalid : ∀ i ∈ is, i.Valid) {p : Nat} (hp : Boundary is p)
    (hlt : p < (encodeAll is).length) :
    ∃ i, Instruction.decode (encodeAll is) p = .ok i ∧ ⟨p, i⟩ ∈ place 0 is := by
  rcases hp with hmem | rfl
  · obtain ⟨⟨_, i⟩, hd, rfl⟩ := mem_map.1 hmem
    exact ⟨i, decode_of_mem_place hvalid hd, hd⟩
  · exact absurd hlt (Nat.lt_irrefl _)

/-! ## What the check says of targets -/

namespace Verifier

/-- The check accepts targets that land on instructions. -/
theorem checkTargets_eq_ok_iff {length : Nat} {ds : List Decoded} :
    checkTargets length boundaries ds = .ok () ↔
      ∀ d ∈ ds, ∀ target, d.target? = some target → lands length boundaries d target = true := by
  induction ds with
  | nil => simp [checkTargets]
  | cons d ds ih =>
    cases htarget : d.target? with
    | none => simp [checkTargets, htarget, ih]
    | some target =>
      cases hlands : lands length boundaries d target with
      | false => simp [checkTargets, htarget, hlands]
      | true => simp [checkTargets, htarget, hlands, ih]

theorem mem_or_eq_of_lands {length : Nat} {target : Nat}
    (h : lands length boundaries d target = true) : target ∈ boundaries ∨ target = length := by
  unfold lands at h
  split at h
  · exact .inl (by simpa using h)
  · simpa using h

end Verifier

/-- Accepted code has valid instructions, with boundaries as targets. -/
theorem exists_instructions_of_verify {code : Code} (h : verify code = .ok ()) :
    ∃ is, (∀ i ∈ is, i.Valid) ∧ code = encodeAll is ∧ disassemble code = .ok (place 0 is) ∧
      ∀ d ∈ place 0 is, ∀ target, d.target? = some target → Boundary is target := by
  unfold verify at h
  split at h
  · cases h
  · rename_i decoded hdecoded
    obtain ⟨_, htargets, -⟩ := bind_eq_ok.1 h
    obtain ⟨is, hvalid, rfl, rfl⟩ := disassemble_eq_ok_iff.1 hdecoded
    refine ⟨is, hvalid, rfl, hdecoded, fun d hd target ht => ?_⟩
    exact Verifier.mem_or_eq_of_lands (Verifier.checkTargets_eq_ok_iff.1 htargets d hd target ht)

/-! ## The invariant -/

/-- The machine's next offset, and every offset that it may go back to, satisfy a property. -/
structure Machine.Bounded (B : Nat → Prop) (m : Machine) : Prop where
  pc : B m.pc
  calls : ∀ frame ∈ m.calls, B frame.returnTo
  loops : ∀ entry ∈ m.loops, B entry.start

namespace Machine.Bounded

variable {B : Nat → Prop} {m : Machine}

/-- A call and a loop store an offset; a return and a loop's end only take one. -/
theorem execute {codeLength : Nat} {i : Instruction} (h : m.Bounded B) (hnext : B (m.pc + i.width))
    (hend : B codeLength) (htarget : ∀ target, Decoded.target? ⟨m.pc, i⟩ = some target → B target) :
    (m.execute codeLength i).Bounded B := by
  obtain ⟨hpc, hcalls, hloops⟩ := h
  cases i with
  | mov dst value | arith op dst a b | out reg | endIf | halt => exact ⟨hnext, hcalls, hloops⟩
  | call addr =>
    refine ⟨htarget _ rfl, fun frame hframe => ?_, hloops⟩
    rcases mem_cons.1 hframe with rfl | hframe
    · exact hnext
    · exact hcalls frame hframe
  | ret =>
    cases hframes : m.calls with
    | nil =>
      rw [execute_ret_of_nil codeLength hframes]
      exact ⟨hend, hcalls, hloops⟩
    | cons frame rest =>
      rw [execute_ret_of_cons codeLength hframes]
      rw [hframes] at hcalls
      exact ⟨hcalls frame (mem_cons_self ..),
        fun f hf => hcalls f (mem_cons_of_mem _ hf),
        fun entry hentry => hloops entry (mem_of_mem_drop hentry)⟩
  | ifZero reg skip =>
    simp only [Machine.execute]
    split
    · exact ⟨htarget _ rfl, hcalls, hloops⟩
    · exact ⟨hnext, hcalls, hloops⟩
  | jump distance => exact ⟨htarget _ rfl, hcalls, hloops⟩
  | whileLoop reg skip =>
    simp only [Machine.execute]
    split
    · exact ⟨htarget _ rfl, hcalls, hloops⟩
    · -- the loop is entered, and its own offset is where the machine is now
      refine ⟨hnext, hcalls, fun entry hentry => ?_⟩
      rcases mem_cons.1 hentry with rfl | hentry
      · exact hpc
      · exact hloops entry hentry
  | endWhile =>
    cases hentries : m.loops with
    | nil =>
      rw [execute_endWhile_of_nil codeLength hentries]
      exact ⟨hnext, hcalls, hloops⟩
    | cons entry rest =>
      rw [execute_endWhile_of_cons codeLength hentries]
      rw [hentries] at hloops
      refine ⟨?_, hcalls, fun e he => hloops e (mem_cons_of_mem _ he)⟩
      simp only
      split
      · exact hnext
      · exact hloops entry (mem_cons_self ..)

/-- One step in accepted code keeps the invariant. -/
theorem step {config : RunConfig} (hvalid : ∀ i ∈ is, i.Valid)
    (htargets : ∀ d ∈ place 0 is, ∀ target, d.target? = some target → Boundary is target)
    {s s' : Session} (h : s.machine.Bounded (Boundary is))
    (hactive : s.isActive (encodeAll is) = true)
    (hstep : s.step config (encodeAll is) = (s', .ok ())) : s'.machine.Bounded (Boundary is) := by
  obtain ⟨-, i, hdecode, -, rfl⟩ := Session.step_eq_ok_iff.1 hstep
  obtain ⟨j, hj, hmem⟩ :=
    exists_decode_of_boundary hvalid h.pc (Session.isActive_iff.1 hactive).2
  obtain rfl : j = i := Except.ok.inj (hj.symm.trans hdecode)
  exact h.execute (boundary_stop hmem) (.inr rfl) (htargets _ hmem)

end Machine.Bounded

/-- **The static check is sound for the machine.** However many steps are taken of accepted code,
and under any limits, the machine stands on an instruction of the disassembly or at the end of the
code, and the run never fails to read an instruction. -/
theorem verify_sound {code : Code} (h : verify code = .ok ()) :
    ∃ decoded, disassemble code = .ok decoded ∧
      ∀ (config : RunConfig) (steps : Nat),
        ((Session.runFor config code steps .start).1.machine.pc ∈ decoded.map (·.offset) ∨
          (Session.runFor config code steps .start).1.machine.pc = code.length) ∧
        ∀ e, (Session.runFor config code steps .start).2 ≠ .faulted (.decode e) := by
  obtain ⟨is, hvalid, rfl, hdecoded, htargets⟩ := exists_instructions_of_verify h
  refine ⟨_, hdecoded, fun config steps => ?_⟩
  have hstart : Session.start.machine.Bounded (Boundary is) := by
    refine ⟨?_, by simp [Session.start, Machine.initial], by simp [Session.start, Machine.initial]⟩
    cases is with
    | nil => exact .inr rfl
    | cons i is => exact .inl (mem_map.2 ⟨⟨0, i⟩, mem_cons_self .., rfl⟩)
  obtain ⟨last, hlast, hrun | hrun | ⟨after, fault, hactive, hfail, hrun⟩⟩ :=
    Session.runFor_ends (P := fun s => s.machine.Bounded (Boundary is))
      (fun s s' hs ha hst => hs.step hvalid htargets ha hst) steps hstart
  · rw [hrun]
    exact ⟨hlast.pc, fun e he => by cases he⟩
  · rw [hrun]
    exact ⟨hlast.pc, fun e he => by cases he⟩
  · rw [hrun]
    obtain ⟨i, hi, hmem⟩ :=
      exists_decode_of_boundary hvalid hlast.pc (Session.isActive_iff.1 hactive).2
    rcases Session.step_eq_error hfail with
      ⟨limit, -, rfl, hm⟩ | ⟨e, he, -, -⟩ | ⟨addr, hc, -, rfl, hm⟩
    · exact ⟨by rw [hm]; exact hlast.pc, fun e he => by cases he⟩
    · rw [hi] at he
      cases he
    · rw [hi] at hc
      cases hc
      exact ⟨by rw [hm]; exact boundary_stop hmem, fun e he => by cases he⟩

/-- A loop that counts down from three is accepted, so all its runs stay on its instructions. -/
theorem verify_sound_countdown :
    verify [0x10, 0, 3, 0x60, 0, 5, 0x12, 0, 0x80, 1, 0x61, 0xFF] = .ok () ∧
      ∃ decoded, disassemble [0x10, 0, 3, 0x60, 0, 5, 0x12, 0, 0x80, 1, 0x61, 0xFF] = .ok decoded ∧
        ∀ (config : RunConfig) (steps : Nat),
          ((Session.runFor config [0x10, 0, 3, 0x60, 0, 5, 0x12, 0, 0x80, 1, 0x61, 0xFF] steps
              .start).1.machine.pc ∈ decoded.map (·.offset) ∨
            (Session.runFor config [0x10, 0, 3, 0x60, 0, 5, 0x12, 0, 0x80, 1, 0x61, 0xFF] steps
              .start).1.machine.pc = 12) ∧
          ∀ e, (Session.runFor config [0x10, 0, 3, 0x60, 0, 5, 0x12, 0, 0x80, 1, 0x61, 0xFF] steps
            .start).2 ≠ .faulted (.decode e) := by
  have hok : (verify [0x10, 0, 3, 0x60, 0, 5, 0x12, 0, 0x80, 1, 0x61, 0xFF]).isOk = true := by
    decide +kernel
  cases h : verify [0x10, 0, 3, 0x60, 0, 5, 0x12, 0, 0x80, 1, 0x61, 0xFF] with
  | error e =>
    rw [h] at hok
    cases hok
  | ok => exact ⟨rfl, verify_sound h⟩

end ImpMachine
