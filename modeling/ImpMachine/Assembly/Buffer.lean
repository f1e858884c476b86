import ImpMachine.Assembly.Error
import ImpMachine.Code.Instruction

/-!
# Code under construction

Machine code that is being written at a cursor, with the labels defined so far, the constructs
whose bounds are becoming known, and the operand bytes that are still to be filled in. Resolving
fills them in, in the order in which they were written.
-/

namespace ImpMachine

/-- What an operand byte waits for. A skip goes to a place in a numbered block. -/
inductive FixupKind where
  /-- The start of the block's `else` part, or its end when it has none. -/
  | ifSkip (block : Nat)
  /-- The end of the block. -/
  | elseSkip (block : Nat)
  /-- The end of the block. -/
  | whileSkip (block : Nat)
  /-- The address of a label. -/
  | call (label : String)
  deriving DecidableEq

/-- An operand byte to be filled in. Skips are measured from `base`, the end of the instruction. -/
structure Fixup where
  kind : FixupKind
  position : Nat
  base : Nat
  deriving DecidableEq

/-- The offsets of a conditional or a loop, as far as they are known. -/
structure BlockBounds where
  elseBody : Option Nat
  stop : Option Nat
  deriving DecidableEq

/-- Code under construction. -/
structure Buffer where
  code : Array UInt8
  cursor : Nat
  labels : List (String × Nat)
  fixups : Array Fixup
  blocks : Array BlockBounds

namespace Buffer

/-- Nothing written yet. -/
def empty : Buffer := ⟨#[], 0, [], #[], #[]⟩

/-! ## Writing -/

/-- Moves the cursor, filling the code with zeros up to it. -/
def seek (buffer : Buffer) (offset : Nat) : Buffer :=
  { buffer with
    code := buffer.code ++ Array.replicate (offset - buffer.code.size) 0
    cursor := offset }

/-- Cuts the code off without moving the cursor. -/
def truncate (buffer : Buffer) (length : Nat) : Buffer :=
  { buffer with code := buffer.code.take length }

/-- Writes a byte at the cursor, over what stands there. Past the end it is added to the code. -/
def writeByte (buffer : Buffer) (b : UInt8) : Buffer :=
  { buffer with
    code :=
      if buffer.cursor < buffer.code.size then buffer.code.setIfInBounds buffer.cursor b
      else buffer.code.push b
    cursor := buffer.cursor + 1 }

/-- Writes an instruction at the cursor. -/
def emit (buffer : Buffer) (i : Instruction) : Buffer :=
  i.encode.foldl writeByte buffer

/-- Writes an instruction whose last byte is filled in later. -/
def emitFixup (buffer : Buffer) (i : Instruction) (kind : FixupKind) : Buffer :=
  let written := buffer.emit i
  { written with fixups := written.fixups.push ⟨kind, written.cursor - 1, written.cursor⟩ }

/-! ## Blocks and labels -/

/-- The number of the next block. -/
def nextBlock (buffer : Buffer) : Nat := buffer.blocks.size

/-- Adds a block of unknown bounds. -/
def openBlock (buffer : Buffer) : Buffer :=
  { buffer with blocks := buffer.blocks.push ⟨none, none⟩ }

/-- Lets the `else` part of a block start at the cursor. Numbers of no block are ignored. -/
def markElseBody (buffer : Buffer) (block : Nat) : Buffer :=
  { buffer with
    blocks := buffer.blocks.modify block fun b => { b with elseBody := some buffer.cursor } }

/-- Lets a block end at an offset. Numbers of no block are ignored. -/
def closeBlock (buffer : Buffer) (block stop : Nat) : Buffer :=
  { buffer with blocks := buffer.blocks.modify block fun b => { b with stop := some stop } }

/-- The labels with one set, instead of an earlier one of that name. -/
def setLabel (name : String) (offset : Nat) : List (String × Nat) → List (String × Nat)
  | [] => [(name, offset)]
  | label :: rest =>
    if label.1 = name then (name, offset) :: rest else label :: setLabel name offset rest

/-- Sets a label to the cursor. That a name is set twice is an error, and the later offset holds. -/
def defineLabel (buffer : Buffer) (name : String) : Buffer × Except AssembleError Unit :=
  ({ buffer with labels := setLabel name buffer.cursor buffer.labels },
    if (buffer.labels.lookup name).isSome then .error (.duplicateFunction name) else .ok ())

/-! ## Resolving -/

/-- The bounds of a block. Numbers of no block have unknown bounds. -/
def bounds (buffer : Buffer) (block : Nat) : BlockBounds :=
  buffer.blocks[block]?.getD ⟨none, none⟩

/-- The value of a skip to the given target. -/
def skipValue (fixup : Fixup) (target : Option Nat) : Except AssembleError Nat :=
  match target with
  | none => .error (.unresolved fixup.position)
  | some target =>
    if target < fixup.base then .error (.unresolved fixup.position)
    else if maxAddress < target - fixup.base then
      .error (.skipTooLong fixup.position (target - fixup.base))
    else .ok (target - fixup.base)

/-- The value that an operand byte waits for. -/
def fixupValue (buffer : Buffer) (fixup : Fixup) : Except AssembleError Nat :=
  match fixup.kind with
  | .call label =>
    match buffer.labels.lookup label with
    | none => .error (.undefinedFunction label)
    | some address =>
      if maxAddress < address then .error (.functionTooFar label address) else .ok address
  | .ifSkip block =>
    let bounds := buffer.bounds block
    skipValue fixup (bounds.elseBody <|> bounds.stop)
  | .elseSkip block | .whileSkip block => skipValue fixup (buffer.bounds block).stop

/-- Fills in one operand byte. -/
def fill (buffer : Buffer) (fixup : Fixup) : Except AssembleError Buffer := do
  let value ← buffer.fixupValue fixup
  if fixup.position < buffer.code.size then
    .ok { buffer with code := buffer.code.setIfInBounds fixup.position (UInt8.ofNat value) }
  else .error (.unresolved fixup.position)

/-- Fills in operand bytes up to the first that cannot be. -/
def fillAll (buffer : Buffer) : List Fixup → Buffer × Except AssembleError Unit
  | [] => (buffer, .ok ())
  | fixup :: rest =>
    match buffer.fill fixup with
    | .ok filled => filled.fillAll rest
    | .error e => (buffer, .error e)

/-- Fills in every operand byte that waits. Those before the first failure stay filled. -/
def resolve (buffer : Buffer) : Buffer × Except AssembleError Unit :=
  buffer.fillAll buffer.fixups.toList

end Buffer

end ImpMachine
