import ImpMachine.Proofs.Drafting
import ImpMachine.Proofs.Encoding

/-!
# What writing a draft leaves

A buffer is seen as the bytes before its cursor and those from it on (`Buffer.of`). Writing moves
bytes of the code from behind the cursor to before it, over what stood there; the operand bytes
still to be filled in and the bounds of blocks are added behind those known so far
(`Draft.write_of`). So a draft is written as the list of its pieces, with blocks numbered in the
order in which they are opened.
-/

namespace ImpMachine

open List

/-- The buffer of given contents, with the cursor between two parts of the code. -/
def Buffer.of (before after : Code) (labels : List (String × Nat)) (fixups : List Fixup)
    (blocks : List BlockBounds) : Buffer :=
  ⟨(before ++ after).toArray, before.length, labels, fixups.toArray, blocks.toArray⟩

namespace Buffer

variable (before after : Code) (labels : List (String × Nat)) (fixups : List Fixup)
variable (blocks : List BlockBounds)

@[simp] theorem cursor_of : (of before after labels fixups blocks).cursor = before.length := rfl

@[simp] theorem nextBlock_of :
    (of before after labels fixups blocks).nextBlock = blocks.length := by
  simp [nextBlock, of]

/-- A byte goes to the cursor, over the one there. -/
theorem writeByte_of (b : UInt8) :
    (of before after labels fixups blocks).writeByte b =
      of (before ++ [b]) (after.drop 1) labels fixups blocks := by
  cases after with
  | nil | cons a after => simp [writeByte, of]

theorem foldl_writeByte_of (bytes : Code) :
    bytes.foldl writeByte (of before after labels fixups blocks) =
      of (before ++ bytes) (after.drop bytes.length) labels fixups blocks := by
  induction bytes generalizing before after with
  | nil => simp
  | cons b bytes ih =>
    rw [foldl_cons, writeByte_of, ih, drop_drop, List.append_assoc, length_cons,
      Nat.add_comm]
    rfl

theorem emit_of (i : Instruction) :
    (of before after labels fixups blocks).emit i =
      of (before ++ i.encode) (after.drop i.width) labels fixups blocks := by
  rw [emit, foldl_writeByte_of, i.length_encode]

/-- An instruction that waits for its operand is noted. -/
theorem emitFixup_of (i : Instruction) (kind : FixupKind) :
    (of before after labels fixups blocks).emitFixup i kind =
      of (before ++ i.encode) (after.drop i.width) labels
        (fixups ++ [⟨kind, before.length + i.width - 1, before.length + i.width⟩]) blocks := by
  rw [emitFixup, emit_of]
  simp [of]

@[simp] theorem openBlock_of :
    (of before after labels fixups blocks).openBlock =
      of before after labels fixups (blocks ++ [⟨none, none⟩]) := by
  simp [openBlock, of]

@[simp] theorem closeBlock_of (later : List BlockBounds) (bounds : BlockBounds) (stop : Nat) :
    (of before after labels fixups (blocks ++ bounds :: later)).closeBlock blocks.length stop =
      of before after labels fixups (blocks ++ { bounds with stop := some stop } :: later) := by
  simp [closeBlock, of, modify_eq_take_drop]

@[simp] theorem markElseBody_of (later : List BlockBounds) (bounds : BlockBounds) :
    (of before after labels fixups (blocks ++ bounds :: later)).markElseBody blocks.length =
      of before after labels fixups
        (blocks ++ { bounds with elseBody := some before.length } :: later) := by
  simp [markElseBody, of, modify_eq_take_drop]

end Buffer

namespace Assembly

/-! ## Pieces -/

/-- The bytes of pieces before anything is filled in. -/
def pieceBytes (pieces : List Piece) : Code :=
  encodeAll (pieces.map (·.instruction))

@[simp] theorem pieceBytes_nil : pieceBytes [] = [] := rfl

@[simp] theorem pieceBytes_cons (p : Piece) (pieces : List Piece) :
    pieceBytes (p :: pieces) = p.instruction.encode ++ pieceBytes pieces := rfl

/-- The bytes of pieces, part by part. -/
@[simp] theorem pieceBytes_append (p q : List Piece) :
    pieceBytes (p ++ q) = pieceBytes p ++ pieceBytes q := by
  simp [pieceBytes]

/-- The operand bytes of pieces that are still to be filled in, the pieces standing at an offset. -/
def fixupsAt (offset : Nat) : List Piece → List Fixup
  | [] => []
  | p :: rest =>
    let stop := offset + p.instruction.width
    (p.fixup.map fun kind => ⟨kind, stop - 1, stop⟩).toList ++ fixupsAt stop rest

/-- Operand bytes to fill in, part by part. -/
theorem fixupsAt_append (offset : Nat) (p q : List Piece) :
    fixupsAt offset (p ++ q) =
      fixupsAt offset p ++ fixupsAt (offset + (pieceBytes p).length) q := by
  induction p generalizing offset with
  | nil => simp [fixupsAt]
  | cons a p ih =>
    simp only [cons_append, fixupsAt, ih, List.append_assoc, pieceBytes_cons,
      length_append, Instruction.length_encode, Nat.add_assoc]

/-- **Pieces are written one behind the other**, and what they wait for is noted. -/
@[simp] theorem writePieces_of (pieces : List Piece) (before after : Code)
    (labels : List (String × Nat)) (fixups : List Fixup) (blocks : List BlockBounds) :
    writePieces pieces (.of before after labels fixups blocks) =
      .of (before ++ pieceBytes pieces) (after.drop (pieceBytes pieces).length) labels
        (fixups ++ fixupsAt before.length pieces) blocks := by
  induction pieces generalizing before after fixups with
  | nil => simp [writePieces, fixupsAt]
  | cons p pieces ih =>
    obtain ⟨i, fixup⟩ := p
    cases fixup with
    | none =>
      change writePieces pieces (Buffer.emit _ i) = _
      rw [Buffer.emit_of, ih]
      simp [fixupsAt]
    | some kind =>
      change writePieces pieces (Buffer.emitFixup _ i kind) = _
      rw [Buffer.emitFixup_of, ih]
      simp [fixupsAt]

/-! ## Drafts -/

namespace Draft

/-- The number of blocks that a draft opens. -/
def blockCount : Draft → Nat
  | .nil => 0
  | .code _ rest => rest.blockCount
  | .conditional _ body rest | .loop _ body rest => 1 + body.blockCount + rest.blockCount
  | .choice _ body other rest => 1 + body.blockCount + other.blockCount + rest.blockCount

/-- The number of bytes of a draft. -/
def size : Draft → Nat
  | .nil => 0
  | .code pieces rest => (pieceBytes pieces).length + rest.size
  | .conditional _ body rest | .loop _ body rest => 3 + body.size + 1 + rest.size
  | .choice _ body other rest => 3 + body.size + 2 + other.size + 1 + rest.size

/-- The pieces of a draft whose blocks are numbered from `first` on. -/
def pieces (first : Nat) : Draft → List Piece
  | .nil => []
  | .code pieces rest => pieces ++ rest.pieces first
  | .conditional test body rest =>
    ⟨.ifZero test.byte 0, some (.ifSkip first)⟩ :: (body.pieces (first + 1) ++
      ⟨.endIf, none⟩ :: rest.pieces (first + 1 + body.blockCount))
  | .choice test body other rest =>
    ⟨.ifZero test.byte 0, some (.ifSkip first)⟩ :: (body.pieces (first + 1) ++
      ⟨.jump 0, some (.elseSkip first)⟩ :: (other.pieces (first + 1 + body.blockCount) ++
        ⟨.endIf, none⟩ :: rest.pieces (first + 1 + body.blockCount + other.blockCount)))
  | .loop test body rest =>
    ⟨.whileLoop test.byte 0, some (.whileSkip first)⟩ :: (body.pieces (first + 1) ++
      ⟨.endWhile, none⟩ :: rest.pieces (first + 1 + body.blockCount))

/-- The bounds of the blocks of a draft that stands at an offset. -/
def bounds (offset : Nat) : Draft → List BlockBounds
  | .nil => []
  | .code pieces rest => rest.bounds (offset + (pieceBytes pieces).length)
  | .conditional _ body rest =>
    ⟨none, some (offset + 3 + body.size)⟩ ::
      (body.bounds (offset + 3) ++ rest.bounds (offset + 3 + body.size + 1))
  | .choice _ body other rest =>
    ⟨some (offset + 3 + body.size + 2), some (offset + 3 + body.size + 2 + other.size)⟩ ::
      (body.bounds (offset + 3) ++ (other.bounds (offset + 3 + body.size + 2) ++
        rest.bounds (offset + 3 + body.size + 2 + other.size + 1)))
  | .loop _ body rest =>
    ⟨none, some (offset + 3 + body.size + 1)⟩ ::
      (body.bounds (offset + 3) ++ rest.bounds (offset + 3 + body.size + 1))

/-- A draft has as many bounds as blocks. -/
@[simp] theorem length_bounds (d : Draft) (offset : Nat) :
    (d.bounds offset).length = d.blockCount := by
  induction d generalizing offset with
  | nil => rfl
  | code pieces rest ih => exact ih _
  | conditional test body rest ihbody ihrest | loop test body rest ihbody ihrest =>
    simp only [bounds, length_cons, length_append, ihbody, ihrest, blockCount]
    omega
  | choice test body other rest ihbody ihother ihrest =>
    simp only [bounds, length_cons, length_append, ihbody, ihother, ihrest, blockCount]
    omega

/-- A draft has as many bytes as its size. -/
@[simp] theorem length_pieceBytes_pieces (d : Draft) (first : Nat) :
    (pieceBytes (d.pieces first)).length = d.size := by
  induction d generalizing first with
  | nil => rfl
  | code pieces rest ih =>
    simp only [Draft.pieces, pieceBytes_append, length_append, ih, size]
  | conditional test body rest ihbody ihrest | loop test body rest ihbody ihrest =>
    simp only [pieces, pieceBytes_cons, pieceBytes_append, length_append,
      Instruction.length_encode, Instruction.width, Instruction.opcode, Opcode.width,
      Opcode.operandCount, ihbody, ihrest, size]
    omega
  | choice test body other rest ihbody ihother ihrest =>
    simp only [pieces, pieceBytes_cons, pieceBytes_append, length_append,
      Instruction.length_encode, Instruction.width, Instruction.opcode, Opcode.width,
      Opcode.operandCount, ihbody, ihother, ihrest, size]
    omega

/-- **What writing a draft leaves.** -/
theorem write_of (d : Draft) (before after : Code) (labels : List (String × Nat))
    (fixups : List Fixup) (blocks : List BlockBounds) :
    d.write (.of before after labels fixups blocks) =
      .of (before ++ pieceBytes (d.pieces blocks.length)) (after.drop d.size) labels
        (fixups ++ fixupsAt before.length (d.pieces blocks.length))
        (blocks ++ d.bounds before.length) := by
  induction d generalizing before after fixups blocks with
  | nil => simp [write, pieces, size, fixupsAt, bounds]
  | code pieces rest ih =>
    rw [write, writePieces_of, ih]
    simp only [Draft.pieces, size, bounds, pieceBytes_append, fixupsAt_append, List.append_assoc,
      length_append, drop_drop]
  | conditional test body rest ihbody ihrest | loop test body rest ihbody ihrest =>
    simp [write, ihbody, ihrest, pieces, bounds, size, fixupsAt, fixupsAt_append, Nat.add_assoc,
      Nat.add_comm body.blockCount 1]
  | choice test body other rest ihbody ihother ihrest =>
    have hcount : body.blockCount + (other.blockCount + 1) =
        1 + (body.blockCount + other.blockCount) := by omega
    simp [write, ihbody, ihother, ihrest, pieces, bounds, size, fixupsAt, fixupsAt_append,
      Nat.add_assoc, Nat.add_comm body.blockCount 1, hcount]

end Draft

end Assembly

end ImpMachine
