import ImpMachine.Proofs.Shape
import ImpMachine.Proofs.Writing

/-!
# Filling in the skips

The skips of a draft are written as zeros and filled in when all bounds are known. A draft whose
pieces wait for nothing but its own skips has a shape (`Draft.HasShape`), and filling in turns the
bytes of the draft into those of the shape (`HasShape.fills`). Every skip is then exact,
because the bounds of a block are the offsets that its parts have in the draft.
-/

namespace ImpMachine

open List

variable {first : Nat} {b : Buffer} {d : Draft} {s : Shape} {before : Code}

namespace Buffer

/-- The buffer with other code. -/
def withCode (b : Buffer) (code : Code) : Buffer := { b with code := code.toArray }

/-- The bounds are those of the buffer's blocks from number `first` on. -/
def HasBlocks (b : Buffer) (first : Nat) (bounds : List BlockBounds) : Prop :=
  bounds <+: b.blocks.toList.drop first

/-- Blocks of two parts, one behind the other. -/
theorem HasBlocks.append {front back : List BlockBounds} (h : b.HasBlocks first (front ++ back)) :
    b.HasBlocks first front ∧ b.HasBlocks (first + front.length) back := by
  obtain ⟨more, hmore⟩ := h
  refine ⟨⟨back ++ more, by rw [← hmore, List.append_assoc]⟩, ⟨more, ?_⟩⟩
  rw [← drop_drop, ← hmore, List.append_assoc, drop_left]

/-- The first block and those behind it. -/
theorem HasBlocks.cons {bounds : BlockBounds} {rest : List BlockBounds}
    (h : b.HasBlocks first (bounds :: rest)) :
    b.bounds first = bounds ∧ b.HasBlocks (first + 1) rest := by
  have hsplit : b.HasBlocks first ([bounds] ++ rest) := h
  obtain ⟨more, hmore⟩ := h
  refine ⟨?_, hsplit.append.2⟩
  have hget : b.blocks.toList[first]? = some bounds := by
    rw [← Nat.add_zero first, ← List.getElem?_drop, ← hmore]
    rfl
  rw [Buffer.bounds, ← Array.getElem?_toList, hget]
  rfl

theorem fill_last (b : Buffer) (kind : FixupKind) (before front after : Code) (x : UInt8)
    (base : Nat) :
    (b.withCode (before ++ (front ++ [x] ++ after))).fill
        ⟨kind, before.length + front.length, base⟩ =
      (b.fixupValue ⟨kind, before.length + front.length, base⟩).map
        fun v => b.withCode (before ++ (front ++ [UInt8.ofNat v] ++ after)) := by
  have hset (v : UInt8) :
      (before ++ (front ++ [x] ++ after)).set (before.length + front.length) v =
        before ++ (front ++ [v] ++ after) := by
    simp
  rw [fill]
  change (b.fixupValue _ >>= fun v => _) = _
  cases b.fixupValue ⟨kind, before.length + front.length, base⟩ with
  | error e => rfl
  | ok v =>
    change (if _ then _ else _ : Except AssembleError Buffer) = _
    rw [if_pos (by simp [withCode])]
    simp only [withCode, setIfInBounds_toArray, hset]
    rfl

theorem skipValue_eq_ok {fixup : Fixup} {target v : Nat}
    (h : skipValue fixup (some target) = .ok v) :
    target = fixup.base + v ∧ v ≤ maxAddress := by
  simp only [skipValue] at h
  split at h
  · cases h
  · split at h
    · cases h
    · cases h
      omega

end Buffer

namespace Assembly

/-! ## Drafts with a shape -/

/-- The draft has no pieces that wait, and so is a shape but for its skips. -/
inductive Draft.HasShape : Draft → Shape → Prop where
  | nil : HasShape .nil .nil
  | code {rest : Draft} {t s : Shape} : t.Fits → rest.HasShape s →
      HasShape (.code (plain t.instructions) rest) (t.append s)
  | conditional {test : Register} {body rest : Draft} {b r : Shape} :
      body.HasShape b → rest.HasShape r →
      HasShape (.conditional test body rest) (.conditional test b r)
  | choice {test : Register} {body other rest : Draft} {b o r : Shape} :
      body.HasShape b → other.HasShape o → rest.HasShape r →
      HasShape (.choice test body other rest) (.choice test b o r)
  | loop {test : Register} {body rest : Draft} {b r : Shape} :
      body.HasShape b → rest.HasShape r → HasShape (.loop test body rest) (.loop test b r)

@[simp] theorem pieceBytes_plain (is : List Instruction) :
    pieceBytes (plain is) = encodeAll is := by
  simp [pieceBytes, plain, Function.comp_def]

@[simp] theorem fixupsAt_plain (offset : Nat) (is : List Instruction) :
    fixupsAt offset (plain is) = [] := by
  induction is generalizing offset with
  | nil => rfl
  | cons i is ih => exact ih _

/-! ## Filling in part by part -/

/-- The pieces stand behind `before` and their operand bytes are the next to be filled in. If that
succeeds, the instructions stand there and the property holds. -/
def Fills (b : Buffer) (before : Code) (pieces : List Piece) (is : List Instruction) (P : Prop) :
    Prop :=
  ∀ (after : Code) (more : List Fixup) (final : Buffer),
    (b.withCode (before ++ (pieceBytes pieces ++ after))).fillAll
      (fixupsAt before.length pieces ++ more) = (final, .ok ()) →
    P ∧ (b.withCode (before ++ (encodeAll is ++ after))).fillAll more = (final, .ok ())

namespace Fills

variable {p q : List Piece} {is js : List Instruction} {P Q : Prop}

theorem mono (h : Fills b before p is P) (hPQ : P → Q) : Fills b before p is Q :=
  fun after more final hfill => (h after more final hfill).imp_left hPQ

/-- Filling in changes no length, so the second part stays where it is. -/
theorem append (h : Fills b before p is P) (hlen : (pieceBytes p).length = (encodeAll is).length)
    (h' : Fills b (before ++ encodeAll is) q js Q) :
    Fills b before (p ++ q) (is ++ js) (P ∧ Q) := by
  intro after more final hfill
  rw [fixupsAt_append, pieceBytes_append, List.append_assoc, List.append_assoc] at hfill
  obtain ⟨hP, hfill⟩ := h _ _ _ hfill
  rw [← List.append_assoc before, hlen, ← length_append] at hfill
  obtain ⟨hQ, hfill⟩ := h' _ _ _ hfill
  refine ⟨⟨hP, hQ⟩, ?_⟩
  rwa [encodeAll_append, List.append_assoc, ← List.append_assoc before]

theorem of_plain (is : List Instruction) : Fills b before (plain is) is True := by
  intro after more final hfill
  rw [pieceBytes_plain, fixupsAt_plain] at hfill
  exact ⟨trivial, hfill⟩

theorem of_skip {kind : FixupKind} {distance : Nat} (head : UInt8 → Instruction) (front : Code)
    (hhead : ∀ x, (head x).encode = front ++ [x])
    (hvalue : ∀ position base, b.fixupValue ⟨kind, position, base⟩ =
      Buffer.skipValue ⟨kind, position, base⟩
        (some (before.length + (front.length + 1) + distance))) :
    Fills b before [⟨head 0, some kind⟩] [head (UInt8.ofNat distance)] (distance ≤ maxAddress) := by
  intro after more final hfill
  have hwidth : (head 0).width = front.length + 1 := by
    rw [← Instruction.length_encode, hhead, length_append, length_singleton]
  have hpieces : pieceBytes [⟨head 0, some kind⟩] = front ++ [0] := by simp [hhead]
  have hfixups : fixupsAt before.length [⟨head 0, some kind⟩] =
      [⟨kind, before.length + front.length, before.length + (front.length + 1)⟩] := by
    simp [fixupsAt, hwidth]
  rw [hpieces, hfixups, singleton_append, Buffer.fillAll, Buffer.fill_last, hvalue] at hfill
  cases hv : Buffer.skipValue
    ⟨kind, before.length + front.length, before.length + (front.length + 1)⟩
    (some (before.length + (front.length + 1) + distance)) with
  | error e =>
    rw [hv] at hfill
    cases hfill
  | ok v =>
    -- the base of the skip is the end of the instruction
    obtain ⟨htarget, hle⟩ := Buffer.skipValue_eq_ok hv
    obtain rfl : distance = v := Nat.add_left_cancel htarget
    rw [hv] at hfill
    refine ⟨hle, ?_⟩
    rwa [encodeAll_cons, encodeAll_nil, List.append_nil, hhead]

end Fills

namespace Draft.HasShape

/-- A draft is as long as its shape. -/
theorem size_eq (h : d.HasShape s) : d.size = s.size := by
  induction h with
  | nil => rfl
  | code _ _ ih => simp [size, Shape.size_append, ih]
  | conditional _ _ ihbody ihrest | loop _ _ ihbody ihrest =>
    simp [size, Shape.size, ihbody, ihrest]
  | choice _ _ _ ihbody ihother ihrest => simp [size, Shape.size, ihbody, ihother, ihrest]

/-- The shape of a draft behind a draft. -/
theorem append {e : Draft} {t : Shape} (hd : d.HasShape s) (he : e.HasShape t) :
    (d.append e).HasShape (s.append t) := by
  induction hd with
  | nil => exact he
  | code hfits _ ih =>
    rw [Shape.append_assoc]
    exact .code hfits ih
  | conditional hbody _ _ ih => exact .conditional hbody ih
  | choice hbody hother _ _ _ ih => exact .choice hbody hother ih
  | loop hbody _ _ ih => exact .loop hbody ih

/-- **Filling in makes the bytes of the shape.** -/
theorem fills (h : d.HasShape s) (hblocks : b.HasBlocks first (d.bounds before.length)) :
    Fills b before (d.pieces first) s.instructions s.Fits := by
  induction h generalizing first before with
  | nil => exact Fills.of_plain []
  | @code rest t s hfits _ ih =>
    rw [bounds, pieceBytes_plain, ← length_append] at hblocks
    rw [Shape.instructions_append]
    refine ((Fills.of_plain t.instructions).append (by simp) (ih hblocks)).mono ?_
    exact fun h => Shape.fits_append.2 ⟨hfits, h.2⟩
  | @conditional test body rest bs rs hb hr ihbody ihrest =>
    obtain ⟨hbounds, hblocks⟩ := hblocks.cons
    obtain ⟨hbody, hrest⟩ := hblocks.append
    have hskip : Fills b before [⟨.ifZero test.byte 0, some (.ifSkip first)⟩]
        [.ifZero test.byte (UInt8.ofNat bs.size)] (bs.size ≤ maxAddress) := by
      refine .of_skip (.ifZero test.byte) [Opcode.ifZero.byte, test.byte] (fun _ => rfl) ?_
      simp [Buffer.fixupValue, hbounds, hb.size_eq]
    refine (hskip.append (by simp) ((ihbody ?_).append (by simp [hb.size_eq])
      ((Fills.of_plain [.endIf]).append (by simp) (ihrest ?_)))).mono ?_
    · simpa using hbody
    · simpa [hb.size_eq, Nat.add_assoc] using hrest
    · rintro ⟨hle, hbs, -, hrs⟩
      exact ⟨hle, hbs, hrs⟩
  | @choice test body other rest bs os rs hb ho hr ihbody ihother ihrest =>
    obtain ⟨hbounds, hblocks⟩ := hblocks.cons
    obtain ⟨hbody, hblocks⟩ := hblocks.append
    obtain ⟨hother, hrest⟩ := hblocks.append
    have hskip : Fills b before [⟨.ifZero test.byte 0, some (.ifSkip first)⟩]
        [.ifZero test.byte (UInt8.ofNat (bs.size + 2))] (bs.size + 2 ≤ maxAddress) := by
      refine .of_skip (.ifZero test.byte) [Opcode.ifZero.byte, test.byte] (fun _ => rfl) ?_
      simp [Buffer.fixupValue, hbounds, hb.size_eq, Nat.add_assoc]
    -- the jump stands behind the body, which has its final bytes by then
    have hjump (before' : Code) (hlen : before'.length = before.length + 3 + bs.size) :
        Fills b before' [⟨.jump 0, some (.elseSkip first)⟩] [.jump (UInt8.ofNat os.size)]
          (os.size ≤ maxAddress) := by
      refine .of_skip .jump [Opcode.jump.byte] (fun _ => rfl) ?_
      simp [Buffer.fixupValue, hbounds, hb.size_eq, ho.size_eq, hlen]
    refine (hskip.append (by simp) ((ihbody ?_).append (by simp [hb.size_eq])
      ((hjump _ ?_).append (by simp) ((ihother ?_).append (by simp [ho.size_eq])
        ((Fills.of_plain [.endIf]).append (by simp) (ihrest ?_)))))).mono ?_
    · simpa using hbody
    · simp [Nat.add_assoc]
    · simpa [hb.size_eq, Nat.add_assoc] using hother
    · simpa [hb.size_eq, ho.size_eq, Nat.add_assoc] using hrest
    · rintro ⟨hle, hbs, hle', hos, -, hrs⟩
      exact ⟨hle, hle', hbs, hos, hrs⟩
  | @loop test body rest bs rs hb hr ihbody ihrest =>
    obtain ⟨hbounds, hblocks⟩ := hblocks.cons
    obtain ⟨hbody, hrest⟩ := hblocks.append
    have hskip : Fills b before [⟨.whileLoop test.byte 0, some (.whileSkip first)⟩]
        [.whileLoop test.byte (UInt8.ofNat (bs.size + 1))] (bs.size + 1 ≤ maxAddress) := by
      refine .of_skip (.whileLoop test.byte) [Opcode.whileLoop.byte, test.byte] (fun _ => rfl) ?_
      simp [Buffer.fixupValue, hbounds, hb.size_eq, Nat.add_assoc]
    refine (hskip.append (by simp) ((ihbody ?_).append (by simp [hb.size_eq])
      ((Fills.of_plain [.endWhile]).append (by simp) (ihrest ?_)))).mono ?_
    · simpa using hbody
    · simpa [hb.size_eq, Nat.add_assoc] using hrest
    · rintro ⟨hle, hbs, -, hrs⟩
      exact ⟨hle, hbs, hrs⟩

end Draft.HasShape

end Assembly

end ImpMachine
