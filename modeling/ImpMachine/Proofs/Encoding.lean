import ImpMachine.Code.Disassembly
import ImpMachine.Result

/-!
# Reading back what was written

An instruction is valid when its registers exist and its immediates leave the register bit free.
Reading bytes gives exactly the valid instructions whose bytes stand in front
(`decodeFirst_eq_ok_iff`). A sequence of valid instructions is read back whole, each instruction
at the sum of the widths before it, and every sequence that is read is one of these
(`disassembleFrom_eq_ok_iff`). So writing and reading undo each other (`disassemble_inverse`).
-/

namespace ImpMachine

open List

variable {offset : Nat} {i : Instruction} {decoded : List Decoded} {bytes : List UInt8} {s : Source}
variable {b : UInt8} {code : Code}

/-- The operand has a byte of its own: its register exists, its immediate is small. -/
def Source.Valid : Source → Prop
  | .reg r => r.toNat < registerCount
  | .imm v => v.toNat ≤ maxSourceImmediate

/-- The operands of the instruction are ones that can be read back. -/
def Instruction.Valid : Instruction → Prop
  | .mov dst _ => dst.toNat < registerCount
  | .arith _ dst a b => dst.toNat < registerCount ∧ a.Valid ∧ b.Valid
  | .out reg | .ifZero reg _ | .whileLoop reg _ => reg.toNat < registerCount
  | .call _ | .ret | .jump _ | .endIf | .endWhile | .halt => True

instance (s : Source) : Decidable s.Valid :=
  match s with
  | .reg r => inferInstanceAs (Decidable (r.toNat < registerCount))
  | .imm v => inferInstanceAs (Decidable (v.toNat ≤ maxSourceImmediate))

theorem forall_byte {P : UInt8 → Prop} (h : ∀ n : Fin 256, P (UInt8.ofNat n.val)) (b : UInt8) :
    P b := by
  have hb := h ⟨b.toNat, b.toNat_lt⟩
  simpa using hb

/-! ## Source operands -/

namespace Source

/-- The register bit is set in the byte of a register and in no small immediate. -/
theorem decode_encode (h : s.Valid) : decode s.encode = s := by
  cases s with
  | reg r =>
    revert h
    exact forall_byte (P := fun r => (reg r).Valid → decode (reg r).encode = reg r)
      (by decide +kernel) r
  | imm v =>
    revert h
    exact forall_byte (P := fun v => (imm v).Valid → decode (imm v).encode = imm v)
      (by decide +kernel) v

theorem encode_decode (b : UInt8) : (decode b).encode = b :=
  forall_byte (P := fun b => (decode b).encode = b) (by decide +kernel) b

/-- What is read as an immediate is small. -/
theorem valid_of_decode_eq_imm {v : UInt8} (h : decode b = .imm v) : (imm v).Valid := by
  have hall : ∀ b : UInt8, ∀ s, decode b = s → s = .reg (b &&& ~~~registerFlag) ∨ s.Valid := by
    intro b s hs
    subst hs
    exact forall_byte
      (P := fun b => decode b = .reg (b &&& ~~~registerFlag) ∨ (decode b).Valid)
      (by decide +kernel) b
  rcases hall b _ h with hreg | hvalid
  · cases hreg
  · exact hvalid

end Source

namespace Instruction

/-! ## One instruction -/

theorem decodeRegister_eq_ok_iff {r : UInt8} :
    decodeRegister offset b = .ok r ↔ b.toNat < registerCount ∧ b = r := by
  unfold decodeRegister
  split
  · rename_i h
    simp [h]
  · rename_i h
    simp [h]

theorem map_decodeRegister_eq_ok_iff {α : Type} {f : UInt8 → α} {x : α} :
    (decodeRegister offset b).map f = .ok x ↔ b.toNat < registerCount ∧ f b = x := by
  unfold decodeRegister
  split
  · rename_i h
    simp [h, Except.map]
  · rename_i h
    simp [h, Except.map]

theorem decodeSource_eq_ok_iff : decodeSource offset b = .ok s ↔ s.Valid ∧ b = s.encode := by
  constructor
  · intro h
    unfold decodeSource at h
    split at h
    · rename_i r hr
      obtain ⟨hlt, rfl⟩ := map_decodeRegister_eq_ok_iff.1 h
      exact ⟨hlt, by rw [← hr, Source.encode_decode]⟩
    · rename_i v hv
      simp only [Except.ok.injEq] at h
      subst h
      exact ⟨Source.valid_of_decode_eq_imm hv, by rw [← hv, Source.encode_decode]⟩
  · rintro ⟨hvalid, rfl⟩
    unfold decodeSource
    rw [Source.decode_encode hvalid]
    cases s with
    | reg r => exact map_decodeRegister_eq_ok_iff.2 ⟨hvalid, rfl⟩
    | imm v => rfl

theorem decodeArith_eq_ok_iff {op : ArithOp} {dst a : UInt8} :
    decodeArith offset op dst a b = .ok i ↔
      ∃ sa sb, i = .arith op dst sa sb ∧ i.Valid ∧ a = sa.encode ∧ b = sb.encode := by
  simp only [decodeArith, bind_eq_ok, decodeRegister_eq_ok_iff, decodeSource_eq_ok_iff]
  constructor
  · rintro ⟨_, ⟨hdst, rfl⟩, sa, ⟨hsa, rfl⟩, sb, ⟨hsb, rfl⟩, hi⟩
    cases hi
    exact ⟨sa, sb, rfl, ⟨hdst, hsa, hsb⟩, rfl, rfl⟩
  · rintro ⟨sa, sb, rfl, ⟨hdst, hsa, hsb⟩, rfl, rfl⟩
    exact ⟨dst, ⟨hdst, rfl⟩, sa, ⟨hsa, rfl⟩, sb, ⟨hsb, rfl⟩, rfl⟩

/-- The number of bytes of an instruction is the width of its operation. -/
@[simp] theorem length_encode (i : Instruction) : i.encode.length = i.width := by
  cases i with
  | arith op dst a b => cases op <;> rfl
  | _ => rfl

theorem width_pos (i : Instruction) : 0 < i.width := by
  unfold width Opcode.width
  omega

@[simp] theorem width_ifZero (reg skip : UInt8) : (ifZero reg skip).width = 3 := rfl

@[simp] theorem width_whileLoop (reg skip : UInt8) : (whileLoop reg skip).width = 3 := rfl

@[simp] theorem width_jump (distance : UInt8) : (jump distance).width = 2 := rfl

@[simp] theorem width_endIf : endIf.width = 1 := rfl

@[simp] theorem width_endWhile : endWhile.width = 1 := rfl

/-- A valid instruction is read back from its bytes, whatever follows them. -/
theorem decodeFirst_encode_append (h : i.Valid) (offset : Nat)
    (rest : List UInt8) : decodeFirst offset (i.encode ++ rest) = .ok i := by
  simp only [encode, cons_append, decodeFirst, Opcode.ofByte?_byte]
  cases i with
  | arith op dst a b =>
    have harith : decodeArith offset op dst a.encode b.encode = .ok (.arith op dst a b) :=
      decodeArith_eq_ok_iff.2 ⟨a, b, rfl, h, rfl, rfl⟩
    cases op <;> simpa [opcode, ArithOp.opcode, operandBytes, decodeOperands] using harith
  | mov dst value | out reg | ifZero reg skip | whileLoop reg skip =>
    exact map_decodeRegister_eq_ok_iff.2 ⟨h, rfl⟩
  | call | ret | jump | endIf | endWhile | halt => rfl

theorem eq_of_decodeOperands {op : Opcode} (h : decodeOperands offset op bytes = .ok i) :
    i.Valid ∧ i.opcode = op ∧ ∃ rest, bytes = i.operandBytes ++ rest := by
  unfold decodeOperands at h
  split at h
  case h_2 | h_3 | h_4 | h_5 =>
    obtain ⟨sa, sb, rfl, hvalid, rfl, rfl⟩ := decodeArith_eq_ok_iff.1 h
    exact ⟨hvalid, rfl, _, rfl⟩
  case h_1 | h_6 | h_9 | h_12 =>
    obtain ⟨hlt, rfl⟩ := map_decodeRegister_eq_ok_iff.1 h
    exact ⟨hlt, rfl, _, rfl⟩
  case h_15 => cases h
  all_goals
    simp only [Except.ok.injEq] at h
    subst h
    exact ⟨trivial, rfl, _, rfl⟩

/-- **Reading inverts writing**: bytes start with those of the instruction read. -/
theorem decodeFirst_eq_ok_iff :
    decodeFirst offset bytes = .ok i ↔ i.Valid ∧ ∃ rest, bytes = i.encode ++ rest := by
  constructor
  · intro h
    cases bytes with
    | nil => cases h
    | cons b rest =>
      unfold decodeFirst at h
      split at h
      · cases h
      · rename_i b' rest' heq
        cases heq
        split at h
        · cases h
        · rename_i op hop
          obtain ⟨hvalid, rfl, rest', hrest⟩ := eq_of_decodeOperands h
          refine ⟨hvalid, rest', ?_⟩
          rw [encode, Opcode.byte_of_ofByte? hop, cons_append, ← hrest]
  · rintro ⟨hvalid, rest, rfl⟩
    exact decodeFirst_encode_append hvalid offset rest

/-- The instruction read at an offset is the one whose bytes stand there. -/
theorem decode_eq_ok_iff :
    decode code offset = .ok i ↔ i.Valid ∧ ∃ rest, code.drop offset = i.encode ++ rest :=
  decodeFirst_eq_ok_iff

end Instruction

/-! ## Sequences of instructions -/

/-- Instructions placed one after the other, the first at an offset. -/
def place (offset : Nat) : List Instruction → List Decoded
  | [] => []
  | i :: rest => ⟨offset, i⟩ :: place (offset + i.width) rest

@[simp] theorem encodeAll_nil : encodeAll [] = [] := rfl

@[simp] theorem encodeAll_cons (i : Instruction) (is : List Instruction) :
    encodeAll (i :: is) = i.encode ++ encodeAll is := rfl

@[simp] theorem encodeAll_append (is js : List Instruction) :
    encodeAll (is ++ js) = encodeAll is ++ encodeAll js :=
  flatMap_append

/-- The second part stands behind the bytes of the first. -/
theorem place_append (offset : Nat) (is js : List Instruction) :
    place offset (is ++ js) = place offset is ++ place (offset + (encodeAll is).length) js := by
  induction is generalizing offset with
  | nil => simp [place]
  | cons i is ih =>
    simp only [cons_append, place, ih, encodeAll_cons, length_append,
      Instruction.length_encode, Nat.add_assoc]

/-- **Disassembly inverts encoding**, and places instructions by their widths. -/
theorem disassembleFrom_eq_ok_iff {bytes : Code} :
    disassembleFrom offset bytes = .ok decoded ↔
      ∃ is, (∀ i ∈ is, i.Valid) ∧ bytes = encodeAll is ∧ decoded = place offset is := by
  constructor
  · intro h
    fun_induction disassembleFrom offset bytes generalizing decoded with
    | case1 offset =>
      cases h
      exact ⟨[], by simp, rfl, rfl⟩
    | case2 => cases h
    | case3 offset b rest i hi ih =>
      obtain ⟨hvalid, tail, htail⟩ := Instruction.decodeFirst_eq_ok_iff.1 hi
      cases hrest : disassembleFrom (offset + i.width) (rest.drop (i.width - 1)) with
      | error e => simp [hrest, Except.map] at h
      | ok later =>
        obtain ⟨is, hvalids, hbytes, rfl⟩ := ih hrest
        simp only [hrest, Except.map, Except.ok.injEq] at h
        -- what the sequence goes on with are the bytes behind the first instruction
        have htail' : tail = encodeAll is := by
          rw [← hbytes, ← drop_succ_cons (a := b), Nat.sub_add_cancel i.width_pos,
            htail, ← i.length_encode, drop_left]
        refine ⟨i :: is, ?_, ?_, h.symm⟩
        · intro j hj
          rcases mem_cons.1 hj with rfl | hj
          · exact hvalid
          · exact hvalids j hj
        · rw [htail, htail', encodeAll_cons]
  · rintro ⟨is, hvalids, rfl, rfl⟩
    induction is generalizing offset with
    | nil => rw [encodeAll_nil, disassembleFrom, place]
    | cons i is ih =>
      have hi : i.Valid := hvalids i (mem_cons_self ..)
      have hfirst := Instruction.decodeFirst_encode_append hi offset (encodeAll is)
      have hlater : disassembleFrom (offset + i.width) (encodeAll is) =
          .ok (place (offset + i.width) is) :=
        ih fun j hj => hvalids j (mem_cons_of_mem _ hj)
      have hdrop : (i.operandBytes ++ encodeAll is).drop (i.width - 1) = encodeAll is := by
        rw [← drop_succ_cons (a := i.opcode.byte), Nat.sub_add_cancel i.width_pos,
          ← cons_append, ← i.length_encode]
        exact drop_left
      rw [encodeAll_cons, Instruction.encode, cons_append, disassembleFrom]
      rw [Instruction.encode, cons_append] at hfirst
      simp only [hfirst, hdrop, hlater, Except.map, place]

/-- **Disassembly reads exactly the bytes of valid instructions.** -/
theorem disassemble_eq_ok_iff :
    disassemble code = .ok decoded ↔
      ∃ is, (∀ i ∈ is, i.Valid) ∧ code = encodeAll is ∧ decoded = place 0 is :=
  disassembleFrom_eq_ok_iff

/-- Placing instructions changes none of them. -/
@[simp] theorem map_instruction_place (offset : Nat) (is : List Instruction) :
    (place offset is).map (·.instruction) = is := by
  induction is generalizing offset with
  | nil => rfl
  | cons i is ih => simp only [place, map_cons, ih]

/-- The sum of the widths of a sequence. -/
def totalWidth : List Instruction → Nat
  | [] => 0
  | i :: is => i.width + totalWidth is

/-- An instruction stands behind the widths before it. -/
theorem offset_of_getElem?_place {k : Nat} {is : List Instruction} {d : Decoded}
    (h : (place offset is)[k]? = some d) :
    d.offset = offset + totalWidth (((place offset is).take k).map (·.instruction)) := by
  induction is generalizing offset k with
  | nil => simp [place] at h
  | cons i is ih =>
    cases k with
    | zero =>
      simp only [place, List.getElem?_cons_zero, Option.some.injEq] at h
      simp [← h, totalWidth]
    | succ k =>
      simp only [place, List.getElem?_cons_succ] at h
      simp only [place, take_succ_cons, map_cons, totalWidth, ih h, Nat.add_assoc]

/-- **Disassembly and encoding are inverse.** What is disassembled is encoded to the same bytes,
each instruction having stood at the sum of the widths before it; and every sequence of valid
instructions is disassembled from its bytes, in its order. -/
theorem disassemble_inverse :
    (∀ (code : Code) (decoded : List Decoded), disassemble code = .ok decoded →
      encodeAll (decoded.map (·.instruction)) = code ∧
        ∀ k d, decoded[k]? = some d →
          d.offset = totalWidth ((decoded.take k).map (·.instruction))) ∧
    (∀ is : List Instruction, (∀ i ∈ is, i.Valid) →
      ∃ decoded, disassemble (encodeAll is) = .ok decoded ∧
        decoded.map (·.instruction) = is) := by
  constructor
  · intro code decoded h
    obtain ⟨is, -, rfl, rfl⟩ := disassemble_eq_ok_iff.1 h
    refine ⟨by rw [map_instruction_place], fun k d hd => ?_⟩
    rw [offset_of_getElem?_place hd, Nat.zero_add]
  · intro is hvalid
    exact ⟨place 0 is, disassemble_eq_ok_iff.2 ⟨is, hvalid, rfl, rfl⟩, map_instruction_place 0 is⟩

/-- The inverse at code of four shapes: the largest immediate, the highest register, a skip and an
end mark. -/
theorem disassemble_inverse_countdown :
    (disassemble [0x10, 7, 255, 0x12, 7, 0x87, 0x7F, 0x60, 7, 1, 0x61, 0xFF] =
        .ok [⟨0, .mov 7 255⟩, ⟨3, .arith .sub 7 (.reg 7) (.imm 127)⟩, ⟨7, .whileLoop 7 1⟩,
          ⟨10, .endWhile⟩, ⟨11, .halt⟩]) ∧
      encodeAll [.mov 7 255, .arith .sub 7 (.reg 7) (.imm 127), .whileLoop 7 1, .endWhile, .halt] =
        [0x10, 7, 255, 0x12, 7, 0x87, 0x7F, 0x60, 7, 1, 0x61, 0xFF] := by
  have h : disassemble [0x10, 7, 255, 0x12, 7, 0x87, 0x7F, 0x60, 7, 1, 0x61, 0xFF] =
      .ok [⟨0, .mov 7 255⟩, ⟨3, .arith .sub 7 (.reg 7) (.imm 127)⟩, ⟨7, .whileLoop 7 1⟩,
        ⟨10, .endWhile⟩, ⟨11, .halt⟩] :=
    disassemble_eq_ok_iff.2 ⟨[.mov 7 255, .arith .sub 7 (.reg 7) (.imm 127), .whileLoop 7 1,
      .endWhile, .halt], by simp [Instruction.Valid, Source.Valid, registerCount,
        maxSourceImmediate], by decide, by decide⟩
  exact ⟨h, (disassemble_inverse.1 _ _ h).1⟩

end ImpMachine
