import ImpMachine.Code.Disassembly
import ImpMachine.Image.Basic

/-!
# Listings of an image

A disassembly listing for readers: functions are headed by their names, the targets of jumps and
calls are marked, and every jump shows where it goes. A hex dump shows sixteen bytes to a row.
-/

namespace ImpMachine.Image

/-- The rule above and below a listing's summary. -/
def rule : String :=
  String.ofList (List.replicate 40 '═')

/-- The line over a marked instruction. -/
def targetLine : String :=
  "      ┌" ++ String.ofList (List.replicate 34 '─')

/-- What a listing adds after an instruction: the function called, or the target of a jump. -/
def remark (image : Image) (d : Decoded) : String :=
  match d.instruction, d.target? with
  | .call _, some target => "  ; " ++ (image.symbolAt? target).getD "?"
  | _, some target => "  ↓ (→ " ++ Text.zeroPadded 4 target ++ ")"
  | _, none => ""

/-- The lines of one instruction. -/
def listingLines (image : Image) (targets : List Nat) (d : Decoded) : List String :=
  let isTarget := targets.contains d.offset
  let header := match image.symbolAt? d.offset with
    | some name => ["", name ++ ":"]
    | none => []
  let mark := if isTarget then [targetLine] else []
  let marker := if isTarget then "► " else "  "
  header ++ mark
    ++ [Text.zeroPadded 4 d.offset ++ " " ++ marker ++ d.instruction.render ++ image.remark d]

/-- The disassembly listing of an image. -/
def listing (image : Image) : Except DecodeError String :=
  (disassemble image.code).map fun decoded =>
    let targets := decoded.filterMap Decoded.target?
    let summary := s!" {image.code.length} bytes, {decoded.length} instructions"
    let lines := [rule, summary, rule, "main:"] ++ decoded.flatMap (image.listingLines targets)
    String.join (lines.map (· ++ "\n"))

/-- One row of a hex dump. -/
def hexRow (offset : Nat) (bytes : List UInt8) : String :=
  Text.hexPadded 4 offset ++ "  "
    ++ " ".intercalate (bytes.map fun b => Text.hexPadded 2 b.toNat) ++ "\n"

/-- The rows of a hex dump, the first of which has the given offset. -/
def hexRows (offset : Nat) (bytes : List UInt8) : List String :=
  match bytes with
  | [] => []
  | b :: rest => hexRow offset ((b :: rest).take 16) :: hexRows (offset + 16) (rest.drop 15)
termination_by bytes.length
decreasing_by simp only [List.length_drop, List.length_cons]; omega

/-- The hex dump of code. -/
def hexDump (code : Code) : String :=
  String.join (hexRows 0 code)

end ImpMachine.Image
