import ImpMachine.Decimal.Integer
import ImpMachine.Machine.Run

/-!
# Reports of the machine

The text of a recorded step, of the output, and of the whole state.
-/

namespace ImpMachine

/-- The line of a recorded step. -/
def Event.text (event : Event) : String :=
  let registers := event.registers.toList.zipIdx.map fun (value, r) =>
    s!" r{r}=" ++ Decimal.wordText value
  Text.padLeft ' ' 6 (toString event.step) ++ "  " ++ Text.zeroPadded 4 event.pc ++ "  "
    ++ Text.padRight 24 event.instruction.render ++ String.join registers

namespace Machine

/-- The output, one word to a line. -/
def outputText (m : Machine) : String :=
  String.join (m.output.toList.map fun value => Decimal.wordText value ++ "\n")

/-- The lines of the call stack, innermost call first. -/
def callLines (m : Machine) : List String :=
  match m.calls with
  | [] => ["call stack: (empty)"]
  | calls =>
    "call stack:" :: calls.zipIdx.map fun (frame, i) =>
      s!"  {i}: return to " ++ Text.zeroPadded 4 frame.returnTo

/-- The lines of the loop stack, innermost loop first. An empty stack is not shown. -/
def loopLines (m : Machine) : List String :=
  match m.loops with
  | [] => []
  | loops =>
    "loops:" :: loops.map fun entry =>
      "  WHILE @" ++ Text.zeroPadded 4 entry.start ++ s!" on r{entry.register.toNat}"

end Machine

/-- The whole state. -/
def Session.text (s : Session) : String :=
  let m := s.machine
  let head := "pc: " ++ Text.zeroPadded 4 m.pc ++ "  state: " ++ m.status.name
    ++ s!"  steps: {s.steps}"
  let registers := m.registers.toList.zipIdx.map fun (value, r) =>
    s!"  r{r} = " ++ Decimal.wordText value
  let output := "output: [" ++ ", ".intercalate (m.output.toList.map Decimal.wordText) ++ "]"
  let lines := ["=== VM STATE ===", head, "registers:"] ++ registers ++ m.callLines ++ m.loopLines
    ++ [output]
  String.join (lines.map (· ++ "\n"))

end ImpMachine
