import ImpMachine.Proofs.Runs

/-!
# Limits and records

A limit on the number of steps cuts a run off and has no other effect, and neither has recording the
steps (`limits_and_records_observe`). All runs are compared with the run that has no step limit: it
is a sequence of sessions, one for each number of successful steps (`after?`), and ends in the last
of them, or with the step that fails there (`endsIn_iff`). Under a limit the sequence is the same as
far as the limit goes; with a record it is the same up to the record.
-/

namespace ImpMachine

variable {last : Session}

namespace RunConfig

/-- The configuration without a step limit. -/
def unlimited (config : RunConfig) : RunConfig := { config with maxSteps := none }

/-- The configuration with a limit of so many steps. -/
def limited (config : RunConfig) (limit : Nat) : RunConfig :=
  { config with maxSteps := some limit }

/-- The configuration with the record switched off. -/
def quiet (config : RunConfig) : RunConfig := { config with trace := false }

/-- The configuration with the record switched on. -/
def recording (config : RunConfig) : RunConfig := { config with trace := true }

end RunConfig

namespace Session

variable {config : RunConfig} {code : Code} {s next : Session} {ending : Ending} {limit n : Nat}

/-! ## The sessions of a run -/

/-- The session after one more step, if the machine goes on and the step succeeds. -/
def advance? (config : RunConfig) (code : Code) (s : Session) : Option Session :=
  if s.isActive code then
    match s.step config code with
    | (next, .ok ()) => some next
    | (_, .error _) => none
  else none

/-- The session after so many successful steps from the start. -/
def after? (config : RunConfig) (code : Code) : Nat → Option Session
  | 0 => some .start
  | n + 1 => (after? config code n).bind (advance? config code)

/-- A run ends in a session: it halts or fails there, given enough fuel. -/
def EndsIn (config : RunConfig) (code : Code) (s : Session) (ending : Ending) : Prop :=
  ending ≠ .unfinished ∧ ∃ fuel, runFor config code fuel .start = (s, ending)

theorem advance?_eq_some_iff :
    s.advance? config code = some next ↔
      s.isActive code = true ∧ s.step config code = (next, .ok ()) := by
  unfold advance?
  split
  · rename_i hactive
    rcases s.step config code with ⟨next', fault | ok⟩ <;> simp [hactive]
  · rename_i hactive
    simp [hactive]

/-- One more step, if the machine goes on and the step succeeds. -/
theorem after?_succ_eq_some_iff :
    after? config code (n + 1) = some next ↔
      ∃ s, after? config code n = some s ∧ s.isActive code = true ∧
        s.step config code = (next, .ok ()) := by
  simp only [after?, Option.bind_eq_some_iff, advance?_eq_some_iff]

/-- Every attempt is counted, whether it succeeds or not. -/
theorem steps_of_step {result : Except Fault Unit} (h : s.step config code = (next, result)) :
    next.steps = s.steps + 1 := by
  cases result with
  | ok =>
    obtain ⟨-, i, -, -, rfl⟩ := step_eq_ok_iff.1 h
    rfl
  | error fault =>
    rcases step_eq_error_iff.1 h with ⟨_, -, -, rfl⟩ | ⟨-, ⟨_, -, -, rfl⟩ | ⟨_, -, -, -, rfl⟩⟩ <;> rfl

theorem steps_of_after? (h : after? config code n = some s) : s.steps = n := by
  induction n generalizing s with
  | zero =>
    cases h
    rfl
  | succ n ih =>
    obtain ⟨t, ht, -, hstep⟩ := after?_succ_eq_some_iff.1 h
    rw [steps_of_step hstep, ih ht]

/-- A run goes on from the session after its first steps. -/
theorem runFor_of_after? (h : after? config code n = some s)
    (fuel : Nat) : runFor config code (n + fuel) .start = runFor config code fuel s := by
  induction n generalizing s fuel with
  | zero =>
    cases h
    rw [Nat.zero_add]
  | succ n ih =>
    obtain ⟨t, ht, hactive, hstep⟩ := after?_succ_eq_some_iff.1 h
    rw [Nat.add_right_comm, Nat.add_assoc, ih ht, runFor_succ fuel hactive, hstep]

/-- How a run ends in its last session: the machine has stopped, or the next step fails. -/
inductive Ends (config : RunConfig) (code : Code) (last : Session) : Session → Ending → Prop where
  | halted : last.isActive code = false →
      Ends config code last { last with machine := { last.machine with status := .halted } } .halted
  | faulted {s : Session} {fault : Fault} : last.isActive code = true →
      last.step config code = (s, .error fault) → Ends config code last s (.faulted fault)

theorem Ends.runFor (h : Ends config code last s ending)
    (fuel : Nat) : Session.runFor config code (fuel + 1) last = (s, ending) := by
  cases h with
  | halted hstopped => exact runFor_of_not_isActive _ hstopped
  | faulted hactive hstep => rw [runFor_succ fuel hactive, hstep]

theorem Ends.steps (h : Ends config code last s ending) :
    s.steps = last.steps ∧ ending = .halted ∨
      s.steps = last.steps + 1 ∧ ∃ fault, ending = .faulted fault := by
  cases h with
  | halted => exact .inl ⟨rfl, rfl⟩
  | faulted _ hstep => exact .inr ⟨steps_of_step hstep, _, rfl⟩

/-- **The course of a run**: successful steps until the fuel is used up or it ends. -/
theorem exists_last_runFor (config : RunConfig) (code : Code) (fuel : Nat) :
    ∃ n last, after? config code n = some last ∧ n ≤ fuel ∧
      (n = fuel ∧ last.isActive code = true ∧
          runFor config code fuel .start = (last, .unfinished) ∨
        ∃ s ending, Ends config code last s ending ∧ s.steps ≤ fuel ∧
          runFor config code fuel .start = (s, ending)) := by
  induction fuel with
  | zero =>
    refine ⟨0, .start, rfl, Nat.le_refl 0, ?_⟩
    cases hactive : start.isActive code with
    | true => exact .inl ⟨rfl, rfl, runFor_zero hactive⟩
    | false =>
      exact .inr ⟨_, _, .halted hactive, Nat.le_refl 0, runFor_of_not_isActive 0 hactive⟩
  | succ fuel ih =>
    obtain ⟨n, last, hlast, hle, ⟨rfl, hactive, -⟩ | ⟨s, ending, hends, hsteps, -⟩⟩ := ih
    · -- the run was cut off before, and takes one more step
      have hsteps := steps_of_after? hlast
      rcases hstep : last.step config code with ⟨next, fault | ok⟩
      · have hends : Ends config code last next (.faulted fault) := .faulted hactive hstep
        refine ⟨n, last, hlast, by omega, .inr ⟨next, _, hends, ?_, ?_⟩⟩
        · exact Nat.le_of_eq ((steps_of_step hstep).trans (congrArg (· + 1) hsteps))
        · rw [runFor_of_after? hlast]
          exact hends.runFor 0
      · have hnext := after?_succ_eq_some_iff.2 ⟨last, hlast, hactive, hstep⟩
        have hrun := runFor_of_after? hnext 0
        rw [Nat.add_zero] at hrun
        refine ⟨n + 1, next, hnext, Nat.le_refl _, ?_⟩
        cases hactive' : next.isActive code with
        | true => exact .inl ⟨rfl, rfl, hrun.trans (runFor_zero hactive')⟩
        | false =>
          have hsteps' : next.steps ≤ n + 1 := Nat.le_of_eq (steps_of_after? hnext)
          exact .inr ⟨_, _, .halted hactive', hsteps',
            hrun.trans (runFor_of_not_isActive 0 hactive')⟩
    · -- the run has ended, and more fuel changes nothing
      refine ⟨n, last, hlast, by omega, .inr ⟨s, ending, hends, by omega, ?_⟩⟩
      have hrun := hends.runFor (fuel - n)
      rw [← runFor_of_after? hlast] at hrun
      rwa [show n + (fuel - n + 1) = fuel + 1 by omega] at hrun

/-- **Where a run ends** is the session after its last successful step. -/
theorem endsIn_iff :
    EndsIn config code s ending ↔
      ∃ n last, after? config code n = some last ∧ Ends config code last s ending := by
  constructor
  · rintro ⟨hended, fuel, hrun⟩
    obtain ⟨n, last, hlast, -, ⟨-, -, hcut⟩ | ⟨s', ending', hends, -, hrun'⟩⟩ :=
      exists_last_runFor config code fuel
    · cases hcut.symm.trans hrun
      exact (hended rfl).elim
    · cases hrun'.symm.trans hrun
      exact ⟨n, last, hlast, hends⟩
  · rintro ⟨n, last, hlast, hends⟩
    refine ⟨?_, n + 1, by rw [runFor_of_after? hlast, hends.runFor 0]⟩
    cases hends <;> simp

/-- A run that ends has ended for good. -/
theorem EndsIn.exists_le (h : EndsIn config code s ending) :
    ∃ n, n ≤ s.steps ∧ ∀ fuel, n < fuel → runFor config code fuel .start = (s, ending) := by
  obtain ⟨n, last, hlast, hends⟩ := endsIn_iff.1 h
  refine ⟨n, ?_, fun fuel hfuel => ?_⟩
  · have := steps_of_after? hlast
    rcases hends.steps with ⟨hsteps, -⟩ | ⟨hsteps, -⟩ <;> omega
  · have hrun := hends.runFor (fuel - n - 1)
    rw [← runFor_of_after? hlast] at hrun
    rwa [show n + (fuel - n - 1 + 1) = fuel by omega] at hrun

/-- A run has one end. -/
theorem EndsIn.unique {s' : Session} {ending' : Ending} (h : EndsIn config code s ending)
    (h' : EndsIn config code s' ending') : s = s' ∧ ending = ending' := by
  obtain ⟨n, -, hrun⟩ := h.exists_le
  obtain ⟨n', -, hrun'⟩ := h'.exists_le
  have heq := (hrun (n + n' + 1) (by omega)).symm.trans (hrun' (n + n' + 1) (by omega))
  exact ⟨congrArg Prod.fst heq, congrArg Prod.snd heq⟩

theorem EndsIn.run_eq (h : EndsIn config code s ending)
    (hsteps : s.steps < patience) : run config code = (s, ending) := by
  obtain ⟨n, hle, hrun⟩ := h.exists_le
  exact hrun patience (by omega)

/-! ## Step limits -/

theorem step_limited_of_lt (h : s.steps < limit) :
    s.step (config.limited limit) code = s.step config.unlimited code := by
  have hlimit : brokenLimit? (config.limited limit) (s.steps + 1) = none := by
    simp only [brokenLimit?, RunConfig.limited, Option.filter_some, decide_eq_true_eq]
    exact if_neg (by omega)
  have hnone : brokenLimit? config.unlimited (s.steps + 1) = none := rfl
  simp only [step, hlimit, hnone]
  rfl

theorem step_limited_of_le (h : limit ≤ s.steps) :
    s.step (config.limited limit) code =
      ({ s with steps := s.steps + 1 }, .error (.stepLimit limit)) := by
  have hlimit : brokenLimit? (config.limited limit) (s.steps + 1) = some limit := by
    simp only [brokenLimit?, RunConfig.limited, Option.filter_some, decide_eq_true_eq]
    exact if_pos (by omega)
  simp only [step, hlimit]

theorem after?_limited (h : n ≤ limit) :
    after? (config.limited limit) code n = after? config.unlimited code n := by
  induction n with
  | zero => rfl
  | succ n ih =>
    rw [after?, after?, ih (by omega)]
    refine Option.bind_congr fun s hs => ?_
    have hsteps := steps_of_after? hs
    unfold advance?
    rw [step_limited_of_lt (by omega)]

/-- A run that ends within the limit ends in the same way. -/
theorem EndsIn.limited (h : EndsIn config.unlimited code s ending) (hle : s.steps ≤ limit) :
    EndsIn (config.limited limit) code s ending := by
  obtain ⟨n, last, hlast, hends⟩ := endsIn_iff.1 h
  have hsteps := steps_of_after? hlast
  refine endsIn_iff.2 ⟨n, last, ?_, ?_⟩
  · rw [after?_limited, hlast]
    rcases hends.steps with ⟨hs, -⟩ | ⟨hs, -⟩ <;> omega
  · cases hends with
    | halted hstopped => exact .halted hstopped
    | faulted hactive hstep =>
      have hs := steps_of_step hstep
      exact .faulted hactive (by rw [step_limited_of_lt (by omega), hstep])

/-- As long as a run has not ended it takes another step. -/
theorem exists_after?_of_lt (h : ∀ s ending, EndsIn config code s ending → limit < s.steps)
    (hn : n ≤ limit) : ∃ s, after? config code n = some s ∧ s.isActive code = true := by
  -- a session at which the run halted would have too few steps
  have hactive {n : Nat} (hn : n ≤ limit) {s : Session} (hs : after? config code n = some s) :
      s.isActive code = true := by
    cases hstopped : s.isActive code with
    | true => rfl
    | false =>
      have hends := h _ _ (endsIn_iff.2 ⟨n, s, hs, .halted hstopped⟩)
      have hsteps : limit < s.steps := hends
      rw [steps_of_after? hs] at hsteps
      omega
  induction n with
  | zero => exact ⟨.start, rfl, hactive hn rfl⟩
  | succ n ih =>
    obtain ⟨s, hs, hs'⟩ := ih (by omega)
    rcases hstep : s.step config code with ⟨next, fault | ok⟩
    · have hsteps := h _ _ (endsIn_iff.2 ⟨n, s, hs, .faulted hs' hstep⟩)
      rw [steps_of_step hstep, steps_of_after? hs] at hsteps
      omega
    · have hnext := after?_succ_eq_some_iff.2 ⟨s, hs, hs', hstep⟩
      exact ⟨next, hnext, hactive hn hnext⟩

/-- A run that does not end within the limit is cut off there. -/
theorem exists_endsIn_stepLimit
    (h : ∀ s ending, EndsIn config.unlimited code s ending → limit < s.steps) :
    ∃ s, after? config.unlimited code limit = some s ∧
      EndsIn (config.limited limit) code { s with steps := limit + 1 }
        (.faulted (.stepLimit limit)) := by
  obtain ⟨s, hs, hactive⟩ := exists_after?_of_lt h (Nat.le_refl limit)
  have hsteps := steps_of_after? hs
  refine ⟨s, hs, endsIn_iff.2 ⟨limit, s, ?_, .faulted hactive ?_⟩⟩
  · rw [after?_limited (Nat.le_refl limit), hs]
  · rw [step_limited_of_le (Nat.le_of_eq hsteps.symm), hsteps]

/-! ## Records -/

/-- The record of the first steps: for each the number of the step, the offset before it and the
registers after it. -/
def Recorded (config : RunConfig) (code : Code) (n : Nat) (events : Array Event) : Prop :=
  events.size = n ∧ ∀ k < n, ∃ before next i,
    after? config code k = some before ∧ after? config code (k + 1) = some next ∧
    Instruction.decode code before.machine.pc = .ok i ∧
    events[k]? = some ⟨k + 1, before.machine.pc, i, next.machine.registers⟩

theorem step_recording_of_ok (trace : Array Event) (h : s.step config.quiet code = (next, .ok ())) :
    ∃ i, Instruction.decode code s.machine.pc = .ok i ∧
      { s with trace }.step config.recording code =
        ({ next with
          trace := trace.push ⟨next.steps, s.machine.pc, i, next.machine.registers⟩ }, .ok ()) := by
  obtain ⟨hlimit, i, hdecode, hdeep, rfl⟩ := step_eq_ok_iff.1 h
  exact ⟨i, hdecode, step_eq_ok_iff.2 ⟨hlimit, i, hdecode, hdeep, rfl⟩⟩

theorem step_recording_of_error {fault : Fault} (trace : Array Event)
    (h : s.step config.quiet code = (next, .error fault)) :
    { s with trace }.step config.recording code = ({ next with trace }, .error fault) := by
  refine step_eq_error_iff.2 ?_
  rcases step_eq_error_iff.1 h with
    ⟨limit, hlimit, rfl, rfl⟩ | ⟨hlimit, ⟨e, hdecode, rfl, rfl⟩ | ⟨i, hdecode, hdeep, rfl, rfl⟩⟩
  · exact .inl ⟨limit, hlimit, rfl, rfl⟩
  · exact .inr ⟨hlimit, .inl ⟨e, hdecode, rfl, rfl⟩⟩
  · obtain ⟨addr, rfl, -⟩ := eq_call_of_isTooDeep hdeep
    exact .inr ⟨hlimit, .inr ⟨.call addr, hdecode, hdeep, rfl, rfl⟩⟩

/-- A recorded run goes through the same sessions, up to the record. -/
theorem exists_after?_recording (h : after? config.quiet code n = some s) :
    ∃ trace, Recorded config.quiet code n trace ∧
      after? config.recording code n = some { s with trace } := by
  induction n generalizing s with
  | zero =>
    cases h
    exact ⟨#[], ⟨rfl, by simp⟩, rfl⟩
  | succ n ih =>
    obtain ⟨t, ht, hactive, hstep⟩ := after?_succ_eq_some_iff.1 h
    obtain ⟨trace, ⟨hsize, hevents⟩, hafter⟩ := ih ht
    obtain ⟨i, hdecode, hrecording⟩ := step_recording_of_ok trace hstep
    refine ⟨_, ⟨by rw [Array.size_push, hsize], fun k hk => ?_⟩,
      after?_succ_eq_some_iff.2 ⟨_, hafter, hactive, hrecording⟩⟩
    rcases Nat.lt_succ_iff_lt_or_eq.1 hk with hk | rfl
    · obtain ⟨before, next, j, hbefore, hnext, hj, hevent⟩ := hevents k hk
      refine ⟨before, next, j, hbefore, hnext, hj, ?_⟩
      rw [Array.getElem?_push_lt (by omega), ← hevent, Array.getElem?_eq_getElem (by omega)]
    · refine ⟨t, s, i, ht, h, hdecode, ?_⟩
      rw [← hsize, Array.getElem?_push_size, steps_of_after? h, hsize]

/-- **A recorded run is the run itself**, with an event for each successful step. -/
theorem exists_runFor_recording (config : RunConfig) (code : Code) (fuel : Nat) :
    ∃ n trace, n ≤ fuel ∧ (after? config.quiet code n).isSome ∧
      (n < fuel → after? config.quiet code (n + 1) = none) ∧
      Recorded config.quiet code n trace ∧
      runFor config.recording code fuel .start =
        ({ (runFor config.quiet code fuel .start).1 with trace },
          (runFor config.quiet code fuel .start).2) := by
  obtain ⟨n, last, hlast, hle, hcourse⟩ := exists_last_runFor config.quiet code fuel
  obtain ⟨trace, hrecorded, hafter⟩ := exists_after?_recording hlast
  refine ⟨n, trace, hle, by simp [hlast], ?_, hrecorded, ?_⟩
  · intro hlt
    rcases hcourse with ⟨rfl, -, -⟩ | ⟨s, ending, hends, -, -⟩
    · omega
    · rw [after?, hlast, Option.bind_some]
      unfold advance?
      cases hends with
      | halted hstopped => simp [hstopped]
      | faulted hactive hstep => simp [hstep]
  · have hrun := runFor_of_after? hafter (fuel - n)
    rw [Nat.add_sub_cancel' hle] at hrun
    rw [hrun]
    rcases hcourse with ⟨rfl, hactive, hquiet⟩ | ⟨s, ending, hends, hsteps, hquiet⟩
    · rw [hquiet, Nat.sub_self]
      exact runFor_zero hactive
    · rw [hquiet]
      cases hends with
      | halted hstopped => exact runFor_of_not_isActive _ hstopped
      | faulted hactive hstep =>
        have hlt : n < fuel := by
          rw [steps_of_step hstep, steps_of_after? hlast] at hsteps
          exact hsteps
        rw [← Nat.succ_pred_eq_of_pos (Nat.sub_pos_of_lt hlt)]
        have hactive' : { last with trace }.isActive code = true := hactive
        exact Ends.runFor (.faulted hactive' (step_recording_of_error trace hstep)) _

/-! ## Both -/

/-- **Limits and records only observe.** What a run ends in is what it answers. Under a step limit it
ends as it does without one, if that takes no more attempts than the limit; otherwise it is cut off,
and the machine is the one after as many steps. An attempt to read bytes that are no instruction
changes nothing, and a call nested too deep only moves the machine behind the call. With a record the
run is the same, and the record has an event for each successful step. -/
theorem limits_and_records_observe (config : RunConfig) (code : Code) (limit : Nat) :
    (∀ (s : Session) (ending : Ending), EndsIn config code s ending → s.steps < patience →
        run config code = (s, ending)) ∧
      (∀ (s : Session) (ending : Ending), EndsIn config.unlimited code s ending → s.steps ≤ limit →
        EndsIn (config.limited limit) code s ending) ∧
      ((∀ (s : Session) (ending : Ending), EndsIn config.unlimited code s ending → limit < s.steps) →
        ∃ s, after? config.unlimited code limit = some s ∧
          EndsIn (config.limited limit) code { s with steps := limit + 1 }
            (.faulted (.stepLimit limit))) ∧
      (∀ (s next : Session) (error : DecodeError),
        s.step config code = (next, .error (.decode error)) →
        next = { s with steps := s.steps + 1 }) ∧
      (∀ (s next : Session) (depth pc : Nat),
        s.step config code = (next, .error (.callDepth depth pc)) →
        ∃ addr, Instruction.decode code s.machine.pc = .ok (.call addr) ∧
          next = { s with
            steps := s.steps + 1
            machine :=
              { s.machine with pc := s.machine.pc + (Instruction.call addr).width } }) ∧
      ∀ fuel, ∃ n trace, n ≤ fuel ∧ (after? config.quiet code n).isSome ∧
        (n < fuel → after? config.quiet code (n + 1) = none) ∧
        Recorded config.quiet code n trace ∧
        runFor config.recording code fuel .start =
          ({ (runFor config.quiet code fuel .start).1 with trace },
            (runFor config.quiet code fuel .start).2) := by
  refine ⟨fun _ _ h => h.run_eq, fun _ _ h => h.limited, exists_endsIn_stepLimit, ?_, ?_,
    exists_runFor_recording config code⟩
  · intro s next error h
    rcases step_eq_error_iff.1 h with ⟨_, -, heq, -⟩ | ⟨-, ⟨_, -, -, rfl⟩ | ⟨_, -, -, heq, -⟩⟩
    · cases heq
    · rfl
    · cases heq
  · intro s next depth pc h
    rcases step_eq_error_iff.1 h with
      ⟨_, -, heq, -⟩ | ⟨-, ⟨_, -, heq, -⟩ | ⟨i, hdecode, hdeep, -, rfl⟩⟩
    · cases heq
    · cases heq
    · obtain ⟨addr, rfl, -⟩ := eq_call_of_isTooDeep hdeep
      exact ⟨addr, hdecode, rfl⟩

/-- Prints 33 and comes to a byte that is no operation. -/
def strayByte : Code := [0x10, 2, 33, 0x20, 2, 0x42]

/-- The run fails in its third attempt. With a limit of three attempts it fails in the same way; with
a limit of two it is cut off behind the output, and the third attempt would have changed nothing. -/
theorem limits_and_records_observe_strayByte :
    ∃ s t : Session,
      EndsIn RunConfig.default.unlimited strayByte s
          (.faulted (.decode (.unknownOpcode 0x42 5))) ∧ s.steps ≤ 3 ∧
        EndsIn (RunConfig.default.limited 3) strayByte s
          (.faulted (.decode (.unknownOpcode 0x42 5))) ∧
        (∀ s ending, EndsIn RunConfig.default.unlimited strayByte s ending → 2 < s.steps) ∧
        after? RunConfig.default.unlimited strayByte 2 = some t ∧ t.machine.output = #[33] ∧
        EndsIn (RunConfig.default.limited 2) strayByte { t with steps := 3 }
          (.faulted (.stepLimit 2)) ∧
        t.step RunConfig.default.unlimited strayByte =
          (s, .error (.decode (.unknownOpcode 0x42 5))) ∧
        s = { t with steps := t.steps + 1 } := by
  let s := (runFor RunConfig.default.unlimited strayByte 3 .start).1
  have hsteps : s.steps = 3 := by decide
  have hends : EndsIn RunConfig.default.unlimited strayByte s
      (.faulted (.decode (.unknownOpcode 0x42 5))) :=
    ⟨by decide, 3, Prod.ext rfl (by decide)⟩
  have hlate : ∀ s ending, EndsIn RunConfig.default.unlimited strayByte s ending → 2 < s.steps := by
    intro s' ending hends'
    rw [← (hends.unique hends').1, hsteps]
    decide
  obtain ⟨-, hsame, -⟩ := limits_and_records_observe .default strayByte 3
  obtain ⟨-, -, hcut, -⟩ := limits_and_records_observe .default strayByte 2
  obtain ⟨-, -, -, hdecode, -⟩ := limits_and_records_observe RunConfig.default.unlimited strayByte 0
  let t := (runFor RunConfig.default.unlimited strayByte 2 .start).1
  have ht : after? RunConfig.default.unlimited strayByte 2 = some t := rfl
  have hfails : t.step RunConfig.default.unlimited strayByte =
      (s, .error (.decode (.unknownOpcode 0x42 5))) := rfl
  obtain ⟨t', ht', hcut⟩ := hcut hlate
  obtain rfl : t = t' := Option.some.inj (ht.symm.trans ht')
  exact ⟨s, t, hends, Nat.le_of_eq hsteps, hsame s _ hends (Nat.le_of_eq hsteps), hlate, ht, rfl,
    hcut, hfails, hdecode _ _ _ hfails⟩

end Session

end ImpMachine
