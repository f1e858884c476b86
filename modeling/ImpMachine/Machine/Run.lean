import ImpMachine.Machine.Step

/-!
# Running code

A session is a machine that is being watched: it counts the steps attempted and, if asked to,
records every step that succeeded. Limits on the number of steps and the depth of calls stop a run
with a fault. After a fault the machine stays as it was when the fault arose.
-/

namespace ImpMachine

/-- Why a step could not be taken. -/
inductive Fault where
  /-- There is no instruction at the offset. -/
  | decode (error : DecodeError)
  | stepLimit (limit : Nat)
  | callDepth (limit pc : Nat)
  deriving DecidableEq

/-- The wording of each fault. -/
def Fault.message (fault : Fault) : String :=
  "runtime error: " ++ match fault with
  | .decode (.unknownOpcode opcode pc) =>
    "unknown opcode 0x" ++ Text.hexPadded 2 opcode.toNat ++ s!" at pc={pc}"
  | .decode (.truncated opcode pc) => "truncated " ++ opcode.mnemonic ++ s!" at pc={pc}"
  | .decode (.invalidRegister register pc) => s!"invalid register r{register.toNat} at pc={pc}"
  | .decode (.outOfBounds pc) => s!"truncated instruction at pc={pc}"
  | .stepLimit limit => s!"execution step limit exceeded ({limit})"
  | .callDepth limit pc =>
    s!"call depth limit exceeded ({limit}) at pc={pc} - possible infinite recursion"

/-- The limits of a run, and whether its steps are recorded. -/
structure RunConfig where
  maxSteps : Option Nat
  maxCallDepth : Nat
  trace : Bool

/-- No step limit, 256 nested calls, no record. -/
def RunConfig.default : RunConfig := ⟨none, 256, false⟩

/-- A step that was taken, and the registers after it. -/
structure Event where
  step : Nat
  pc : Nat
  instruction : Instruction
  registers : RegisterFile

/-- A machine that is being watched. -/
structure Session where
  machine : Machine
  steps : Nat
  trace : Array Event

namespace Session

/-- A machine that was not started. -/
def idle : Session := ⟨.initial .halted, 0, #[]⟩

/-- A machine that was just started. -/
def start : Session := ⟨.initial .running, 0, #[]⟩

/-- The step limit that one more step would break. -/
def brokenLimit? (config : RunConfig) (steps : Nat) : Option Nat :=
  config.maxSteps.filter (· < steps)

/-- The instruction is a call that would be nested too deep. -/
def isTooDeep (config : RunConfig) (m : Machine) : Instruction → Bool
  | .call _ => config.maxCallDepth ≤ m.calls.length
  | _ => false

/-- The session after the instruction at the machine's offset. -/
def take (config : RunConfig) (code : Code) (s : Session) (i : Instruction) : Session :=
  let machine := s.machine.execute code.length i
  let event : Event := ⟨s.steps, s.machine.pc, i, machine.registers⟩
  { s with machine, trace := if config.trace then s.trace.push event else s.trace }

/-- Attempts one step. A call that is too deep leaves the machine just behind it. -/
def step (config : RunConfig) (code : Code) (s : Session) : Session × Except Fault Unit :=
  let s := { s with steps := s.steps + 1 }
  match brokenLimit? config s.steps with
  | some limit => (s, .error (.stepLimit limit))
  | none =>
    match Instruction.decode code s.machine.pc with
    | .error e => (s, .error (.decode e))
    | .ok i =>
      if isTooDeep config s.machine i then
        ({ s with machine := s.machine.advance i },
          .error (.callDepth config.maxCallDepth s.machine.pc))
      else (s.take config code i, .ok ())

/-- The machine goes on: it was not halted and stands within the code. -/
def isActive (code : Code) (s : Session) : Bool :=
  s.machine.status = .running && s.machine.pc < code.length

/-- How a run ends. -/
inductive Ending where
  | halted
  | faulted (fault : Fault)
  /-- The run was cut off. -/
  | unfinished
  deriving DecidableEq

/-- Takes at most `fuel` steps, until the machine halts or leaves the code. -/
def runFor (config : RunConfig) (code : Code) : Nat → Session → Session × Ending
  | fuel, s =>
    if s.isActive code then
      match fuel with
      | 0 => (s, .unfinished)
      | fuel + 1 =>
        match s.step config code with
        | (s, .error fault) => (s, .faulted fault)
        | (s, .ok ()) => runFor config code fuel s
    else ({ s with machine := { s.machine with status := .halted } }, .halted)

/-- The number of steps after which a run is cut off, `2 ^ 62`: more than can be taken in
practice. -/
def patience : Nat := 0x4000000000000000

/-- Runs code from its start. -/
def run (config : RunConfig) (code : Code) : Session × Ending :=
  runFor config code patience start

end Session

end ImpMachine
