import ImpMachine.Machine.Run

/-!
# What a run goes through

What the instructions that read a stack do, one step of a session by its outcomes, and whole runs:
a property of sessions that every successful step keeps holds of the session a run ends with, up to
what the end itself changes (`runFor_ends`).
-/

namespace ImpMachine

variable {s' : Session} {fault : Fault} {m : Machine}

/-! ## Stacks -/

namespace Machine

theorem execute_ret_of_nil (codeLength : Nat) (h : m.calls = []) :
    m.execute codeLength .ret =
      { m.advance .ret with pc := codeLength, status := .halted } := by
  simp [execute, ret, advance, h]

/-- A return goes back to the innermost caller. -/
theorem execute_ret_of_cons (codeLength : Nat) {frame : Frame} {calls : List Frame}
    (h : m.calls = frame :: calls) :
    m.execute codeLength .ret =
      { m.advance .ret with
        calls, pc := frame.returnTo,
        loops := m.loops.drop (m.loops.length - frame.loopDepth) } := by
  simp [execute, ret, advance, h]

theorem execute_endWhile_of_nil (codeLength : Nat) (h : m.loops = []) :
    m.execute codeLength .endWhile = m.advance .endWhile := by
  simp [execute, endLoop, advance, h]

/-- An end mark goes back to the start of its loop. -/
theorem execute_endWhile_of_cons (codeLength : Nat) {entry : LoopEntry} {loops : List LoopEntry}
    (h : m.loops = entry :: loops) :
    m.execute codeLength .endWhile =
      { m.advance .endWhile with
        loops,
        pc := if m.get entry.register = 0 then (m.advance .endWhile).pc else entry.start } := by
  simp [execute, endLoop, advance, h, get]

end Machine

namespace Session

variable {config : RunConfig} {code : Code} {s : Session}

/-! ## One step -/

/-- A machine goes on while it runs inside the code. -/
theorem isActive_iff :
    s.isActive code = true ↔ s.machine.status = .running ∧ s.machine.pc < code.length := by
  simp [isActive]

/-- A step succeeds unless it breaks a step limit or nests a call too deep. -/
theorem step_eq_ok_iff :
    s.step config code = (s', .ok ()) ↔
      brokenLimit? config (s.steps + 1) = none ∧
        ∃ i, Instruction.decode code s.machine.pc = .ok i ∧
          isTooDeep config s.machine i = false ∧
          s' = { s with steps := s.steps + 1 }.take config code i := by
  unfold step
  cases hlimit : brokenLimit? config (s.steps + 1) with
  | some limit => simp [hlimit]
  | none =>
    cases hdecode : Instruction.decode code s.machine.pc with
    | error e => simp [hlimit, hdecode]
    | ok i =>
      cases hdeep : isTooDeep config s.machine i with
      | true => simp [hlimit, hdecode, hdeep]
      | false =>
        simp only [hlimit, hdecode, hdeep, Bool.false_eq_true, if_false, Prod.mk.injEq, and_true,
          true_and, Except.ok.injEq, exists_eq_left']
        exact eq_comm

/-- A step fails at a limit, without an instruction, or at a call nested too deep. -/
theorem step_eq_error_iff :
    s.step config code = (s', .error fault) ↔
      (∃ limit, brokenLimit? config (s.steps + 1) = some limit ∧ fault = .stepLimit limit ∧
          s' = { s with steps := s.steps + 1 }) ∨
        brokenLimit? config (s.steps + 1) = none ∧
          ((∃ e, Instruction.decode code s.machine.pc = .error e ∧ fault = .decode e ∧
              s' = { s with steps := s.steps + 1 }) ∨
            ∃ i, Instruction.decode code s.machine.pc = .ok i ∧
              isTooDeep config s.machine i = true ∧
              fault = .callDepth config.maxCallDepth s.machine.pc ∧
              s' = { s with steps := s.steps + 1, machine := s.machine.advance i }) := by
  unfold step
  cases hlimit : brokenLimit? config (s.steps + 1) with
  | some limit =>
    simp only [hlimit, Prod.mk.injEq, Except.error.injEq]
    grind
  | none =>
    cases hdecode : Instruction.decode code s.machine.pc with
    | error e =>
      simp only [hlimit, hdecode, Prod.mk.injEq, Except.error.injEq]
      grind
    | ok i =>
      cases hdeep : isTooDeep config s.machine i with
      | true =>
        simp only [hlimit, hdecode, hdeep, if_true, Prod.mk.injEq, Except.error.injEq]
        grind
      | false => simp [hlimit, hdecode, hdeep]

theorem eq_call_of_isTooDeep {i : Instruction} (h : isTooDeep config m i = true) :
    ∃ addr, i = .call addr ∧ config.maxCallDepth ≤ m.calls.length := by
  cases i with
  | call addr => exact ⟨addr, rfl, by simpa [isTooDeep] using h⟩
  | _ => cases h

/-- Of the steps that fail, only a call nested too deep moves the machine. -/
theorem step_eq_error (h : s.step config code = (s', .error fault)) :
    (∃ limit, config.maxSteps = some limit ∧ fault = .stepLimit limit ∧
        s'.machine = s.machine) ∨
      (∃ e, Instruction.decode code s.machine.pc = .error e ∧ fault = .decode e ∧
        s'.machine = s.machine) ∨
      ∃ addr, Instruction.decode code s.machine.pc = .ok (.call addr) ∧
        config.maxCallDepth ≤ s.machine.calls.length ∧
        fault = .callDepth config.maxCallDepth s.machine.pc ∧
        s'.machine = s.machine.advance (.call addr) := by
  rcases step_eq_error_iff.1 h with
    ⟨limit, hlimit, rfl, rfl⟩ | ⟨-, ⟨e, hdecode, rfl, rfl⟩ | ⟨i, hdecode, hdeep, rfl, rfl⟩⟩
  · exact .inl ⟨limit, (Option.filter_eq_some_iff.1 hlimit).1, rfl, rfl⟩
  · exact .inr (.inl ⟨e, hdecode, rfl, rfl⟩)
  · obtain ⟨addr, rfl, hdepth⟩ := eq_call_of_isTooDeep hdeep
    exact .inr (.inr ⟨addr, hdecode, hdepth, rfl, rfl⟩)

/-! ## Whole runs -/

theorem runFor_of_not_isActive (fuel : Nat) (h : s.isActive code = false) :
    runFor config code fuel s =
      ({ s with machine := { s.machine with status := .halted } }, .halted) := by
  cases fuel <;> simp [runFor, h]

theorem runFor_zero (h : s.isActive code = true) : runFor config code 0 s = (s, .unfinished) := by
  rw [runFor, h]
  rfl

theorem runFor_succ (fuel : Nat) (h : s.isActive code = true) :
    runFor config code (fuel + 1) s =
      match s.step config code with
      | (s, .error fault) => (s, .faulted fault)
      | (s, .ok ()) => runFor config code fuel s := by
  rw [runFor, h]
  rfl

/-- A run that halted is not changed by more fuel. -/
theorem runFor_add_of_halted {fuel : Nat} (h : runFor config code fuel s = (s', .halted))
    (more : Nat) : runFor config code (fuel + more) s = (s', .halted) := by
  induction fuel generalizing s with
  | zero =>
    cases hactive : s.isActive code with
    | false =>
      rw [runFor_of_not_isActive _ hactive] at h ⊢
      exact h
    | true =>
      rw [runFor_zero hactive] at h
      cases h
  | succ fuel ih =>
    cases hactive : s.isActive code with
    | false =>
      rw [runFor_of_not_isActive _ hactive] at h ⊢
      exact h
    | true =>
      rw [Nat.succ_add, runFor_succ _ hactive]
      rw [runFor_succ _ hactive] at h
      rcases hstep : s.step config code with ⟨next, fault | ok⟩
      · rw [hstep] at h
        cases h
      · rw [hstep] at h
        exact ih h

/-- **Where a run ends**: what steps keep holds where it is cut off, halts or fails. -/
theorem runFor_ends {P : Session → Prop}
    (hstep : ∀ s s', P s → s.isActive code = true → s.step config code = (s', .ok ()) → P s')
    (fuel : Nat) (hs : P s) :
    ∃ last, P last ∧
      (runFor config code fuel s = (last, .unfinished) ∨
        runFor config code fuel s =
          ({ last with machine := { last.machine with status := .halted } }, .halted) ∨
        ∃ after fault, last.isActive code = true ∧
          last.step config code = (after, .error fault) ∧
          runFor config code fuel s = (after, .faulted fault)) := by
  induction fuel generalizing s with
  | zero =>
    cases hactive : s.isActive code with
    | false => exact ⟨s, hs, .inr (.inl (runFor_of_not_isActive 0 hactive))⟩
    | true => exact ⟨s, hs, .inl (runFor_zero hactive)⟩
  | succ fuel ih =>
    cases hactive : s.isActive code with
    | false => exact ⟨s, hs, .inr (.inl (runFor_of_not_isActive _ hactive))⟩
    | true =>
      rw [runFor_succ fuel hactive]
      rcases hres : s.step config code with ⟨s', fault | ok⟩
      · exact ⟨s, hs, .inr (.inr ⟨s', fault, hactive, hres, rfl⟩)⟩
      · exact ih (hstep s s' hs hactive hres)

end Session

end ImpMachine
