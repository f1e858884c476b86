import ImpMachine.Assembly.RegisterMap
import ImpMachine.Proofs.VerifierSoundness

/-!
# Machine code with structure

A shape is machine code as a tree: conditionals and loops with the code inside them, every skip as
long as what it skips. `Structured` says the same of a listing, instruction by instruction, without
a tree. Listings of shapes are structured (`structured_place`), and the static check accepts a
structured listing whose calls go to instructions (`verify_of_structured`).
-/

namespace ImpMachine

open List Verifier

variable {d : Decoded} {ds : List Decoded} {is : List Instruction}

/-- The instruction neither begins, divides nor ends a construct. -/
def Instruction.IsPlain : Instruction → Prop
  | .ifZero .. | .jump _ | .endIf | .whileLoop .. | .endWhile => False
  | _ => True

@[simp] theorem Register.byte_toNat (r : Register) : r.byte.toNat = r.val := by
  rw [Register.byte, UInt8.toNat_ofNat']
  exact Nat.mod_eq_of_lt (Nat.lt_trans r.isLt (by decide))

theorem Register.byte_lt (r : Register) : r.byte.toNat < registerCount := by
  rw [r.byte_toNat]
  exact r.isLt

theorem toNat_ofNat_of_le {n : Nat} (h : n ≤ maxAddress) : (UInt8.ofNat n).toNat = n := by
  rw [UInt8.toNat_ofNat']
  exact Nat.mod_eq_of_lt (Nat.lt_succ_of_le h)

/-! ## Listings -/

/-- The constructs of a listing are nested, and their skips exact: a conditional goes to its end
mark, or just behind the jump that divides it, which goes to the end mark, and a loop goes just
behind its end mark. -/
inductive Structured : List Decoded → Prop where
  | nil : Structured []
  | plain {d : Decoded} {rest : List Decoded} :
      d.instruction.IsPlain → Structured rest → Structured (d :: rest)
  | conditional {head last : Decoded} {body rest : List Decoded} {test skip : UInt8} :
      head.instruction = .ifZero test skip → last.instruction = .endIf →
      head.target? = some last.offset →
      Structured body → Structured rest → Structured (head :: (body ++ last :: rest))
  | choice {head middle last : Decoded} {body other rest : List Decoded}
      {test skip distance : UInt8} :
      head.instruction = .ifZero test skip → middle.instruction = .jump distance →
      last.instruction = .endIf →
      head.target? = some middle.stop → middle.target? = some last.offset →
      Structured body → Structured other → Structured rest →
      Structured (head :: (body ++ middle :: (other ++ last :: rest)))
  | loop {head last : Decoded} {body rest : List Decoded} {test skip : UInt8} :
      head.instruction = .whileLoop test skip → last.instruction = .endWhile →
      head.target? = some last.stop →
      Structured body → Structured rest → Structured (head :: (body ++ last :: rest))

namespace Verifier

theorem checkLoops_cons (hstart : ∀ r skip, d.instruction ≠ .whileLoop r skip)
    (hstop : d.instruction ≠ .endWhile) (opened rest : List Decoded) :
    checkLoops opened (d :: rest) = checkLoops opened rest := by
  obtain ⟨offset, i⟩ := d
  cases i with
  | whileLoop reg skip => exact (hstart _ _ rfl).elim
  | endWhile => exact (hstop rfl).elim
  | _ => rfl

theorem checkLoops_cons_whileLoop {test skip : UInt8} (h : d.instruction = .whileLoop test skip)
    (opened rest : List Decoded) :
    checkLoops opened (d :: rest) = checkLoops (d :: opened) rest := by
  obtain ⟨offset, i⟩ := d
  cases h
  rfl

theorem checkLoops_cons_endWhile {start : Decoded} (h : d.instruction = .endWhile)
    (hexit : start.target? = some d.stop) (opened rest : List Decoded) :
    checkLoops (start :: opened) (d :: rest) = checkLoops opened rest := by
  obtain ⟨offset, i⟩ := d
  cases h
  refine if_pos ?_
  rw [hexit]
  rfl

end Verifier

namespace Structured

theorem target_mem (h : Structured ds) (hd : d ∈ ds)
    (hcall : ∀ addr, d.instruction ≠ .call addr) {target : Nat} (ht : d.target? = some target) :
    ∃ e ∈ ds, target = e.offset ∨ target = e.stop := by
  induction h with
  | nil => cases hd
  | @plain head rest hplain _ ih =>
    rcases mem_cons.1 hd with rfl | hd
    · -- among the plain instructions only calls have a target
      unfold Decoded.target? at ht
      split at ht <;> rename_i hi
      case h_4 => exact (hcall _ hi).elim
      case h_5 => cases ht
      all_goals
        rw [hi] at hplain
        cases hplain
    · obtain ⟨e, he, heq⟩ := ih hd
      exact ⟨e, mem_cons_of_mem _ he, heq⟩
  | @conditional head last body rest _ _ _ hlast hhead _ _ ihbody ihrest =>
    simp only [mem_cons, mem_append] at hd ⊢
    rcases hd with rfl | hd | rfl | hd
    · cases hhead.symm.trans ht
      exact ⟨last, by simp, .inl rfl⟩
    · obtain ⟨e, he, heq⟩ := ihbody hd
      exact ⟨e, by simp [he], heq⟩
    · simp [Decoded.target?, hlast] at ht
    · obtain ⟨e, he, heq⟩ := ihrest hd
      exact ⟨e, by simp [he], heq⟩
  | @choice head middle last body other rest _ _ _ _ _ hlast hhead hmiddle _ _ _ ihbody ihother
    ihrest =>
    simp only [mem_cons, mem_append] at hd ⊢
    rcases hd with rfl | hd | rfl | hd | rfl | hd
    · cases hhead.symm.trans ht
      exact ⟨middle, by simp, .inr rfl⟩
    · obtain ⟨e, he, heq⟩ := ihbody hd
      exact ⟨e, by simp [he], heq⟩
    · cases hmiddle.symm.trans ht
      exact ⟨last, by simp, .inl rfl⟩
    · obtain ⟨e, he, heq⟩ := ihother hd
      exact ⟨e, by simp [he], heq⟩
    · simp [Decoded.target?, hlast] at ht
    · obtain ⟨e, he, heq⟩ := ihrest hd
      exact ⟨e, by simp [he], heq⟩
  | @loop head last body rest _ _ _ hlast hhead _ _ ihbody ihrest =>
    simp only [mem_cons, mem_append] at hd ⊢
    rcases hd with rfl | hd | rfl | hd
    · cases hhead.symm.trans ht
      exact ⟨last, by simp, .inr rfl⟩
    · obtain ⟨e, he, heq⟩ := ihbody hd
      exact ⟨e, by simp [he], heq⟩
    · simp [Decoded.target?, hlast] at ht
    · obtain ⟨e, he, heq⟩ := ihrest hd
      exact ⟨e, by simp [he], heq⟩

/-- Loops open around a listing stay as they are. -/
theorem checkLoops_append (h : Structured ds) (opened more : List Decoded) :
    Verifier.checkLoops opened (ds ++ more) = Verifier.checkLoops opened more := by
  induction h generalizing opened more with
  | nil => rfl
  | @plain d rest hplain _ ih =>
    rw [cons_append, checkLoops_cons, ih]
    · intro r skip hi
      rw [hi] at hplain
      cases hplain
    · intro hi
      rw [hi] at hplain
      cases hplain
  | conditional hhead hlast _ _ _ ihbody ihrest =>
    rw [cons_append, List.append_assoc, cons_append,
      checkLoops_cons (by simp [hhead]) (by simp [hhead]), ihbody,
      checkLoops_cons (by simp [hlast]) (by simp [hlast]), ihrest]
  | choice hhead hmiddle hlast _ _ _ _ _ ihbody ihother ihrest =>
    rw [cons_append, List.append_assoc, cons_append, List.append_assoc, cons_append,
      checkLoops_cons (by simp [hhead]) (by simp [hhead]), ihbody,
      checkLoops_cons (by simp [hmiddle]) (by simp [hmiddle]), ihother,
      checkLoops_cons (by simp [hlast]) (by simp [hlast]), ihrest]
  | loop hhead hlast htarget _ _ ihbody ihrest =>
    rw [cons_append, List.append_assoc, cons_append,
      checkLoops_cons_whileLoop hhead, ihbody,
      checkLoops_cons_endWhile hlast htarget, ihrest]

end Structured

/-- **The static check accepts structured code whose calls go to instructions.** -/
theorem verify_of_structured (hvalid : ∀ i ∈ is, i.Valid) (h : Structured (place 0 is))
    (hcalls : ∀ addr, .call addr ∈ is → addr.toNat ∈ (place 0 is).map (·.offset)) :
    verify (encodeAll is) = .ok () := by
  have hdecoded : disassemble (encodeAll is) = .ok (place 0 is) :=
    disassemble_eq_ok_iff.2 ⟨is, hvalid, rfl, rfl⟩
  have htargets : Verifier.checkTargets (encodeAll is).length ((place 0 is).map (·.offset))
      (place 0 is) = .ok () := by
    refine checkTargets_eq_ok_iff.2 fun d hd target ht => ?_
    by_cases hcall : ∃ addr, d.instruction = .call addr
    · obtain ⟨addr, hcall⟩ := hcall
      obtain ⟨before, after, his, -⟩ := mem_place_iff.1 hd
      have hmem := hcalls addr (by simp [his, hcall])
      simp only [Decoded.target?, hcall, Option.some.injEq] at ht
      subst ht
      simp only [Verifier.lands, hcall, contains_eq_mem, hmem, decide_true]
    · have hboundary : Boundary is target := by
        obtain ⟨e, he, rfl | rfl⟩ := h.target_mem hd (fun addr hi => hcall ⟨addr, hi⟩) ht
        · exact .inl (mem_map_of_mem he)
        · exact boundary_stop he
      unfold Verifier.lands
      split
      · rename_i addr hi
        exact (hcall ⟨addr, hi⟩).elim
      · simpa [Boundary] using hboundary
  have hloops : Verifier.checkLoops [] (place 0 is) = .ok () := by
    have happend := h.checkLoops_append [] []
    rwa [List.append_nil] at happend
  simp only [verify, hdecoded, htargets]
  exact hloops

/-! ## Shapes -/

/-- Machine code in its constructs. A construct has the register that it tests. -/
inductive Shape where
  | nil
  | plain (i : Instruction) (isPlain : i.IsPlain) (rest : Shape)
  | conditional (test : Register) (body rest : Shape)
  | choice (test : Register) (body other rest : Shape)
  | loop (test : Register) (body rest : Shape)

variable {s t : Shape}

namespace Shape

variable {P : Instruction → Prop}

/-- One shape behind the other. -/
def append : Shape → Shape → Shape
  | .nil, s => s
  | .plain i h rest, s => .plain i h (rest.append s)
  | .conditional test body rest, s => .conditional test body (rest.append s)
  | .choice test body other rest, s => .choice test body other (rest.append s)
  | .loop test body rest, s => .loop test body (rest.append s)

/-- The number of bytes of a shape. -/
def size : Shape → Nat
  | .nil => 0
  | .plain i _ rest => i.width + rest.size
  | .conditional _ body rest | .loop _ body rest => 3 + body.size + 1 + rest.size
  | .choice _ body other rest => 3 + body.size + 2 + other.size + 1 + rest.size

/-- The instructions of a shape. -/
def instructions : Shape → List Instruction
  | .nil => []
  | .plain i _ rest => i :: rest.instructions
  | .conditional test body rest =>
    .ifZero test.byte (UInt8.ofNat body.size) ::
      (body.instructions ++ .endIf :: rest.instructions)
  | .choice test body other rest =>
    .ifZero test.byte (UInt8.ofNat (body.size + 2)) ::
      (body.instructions ++ .jump (UInt8.ofNat other.size) ::
        (other.instructions ++ .endIf :: rest.instructions))
  | .loop test body rest =>
    .whileLoop test.byte (UInt8.ofNat (body.size + 1)) ::
      (body.instructions ++ .endWhile :: rest.instructions)

/-- Every skip fits its byte. -/
def Fits : Shape → Prop
  | .nil => True
  | .plain _ _ rest => rest.Fits
  | .conditional _ body rest => body.size ≤ maxAddress ∧ body.Fits ∧ rest.Fits
  | .choice _ body other rest =>
    body.size + 2 ≤ maxAddress ∧ other.size ≤ maxAddress ∧ body.Fits ∧ other.Fits ∧ rest.Fits
  | .loop _ body rest => body.size + 1 ≤ maxAddress ∧ body.Fits ∧ rest.Fits

/-- Every plain instruction has a property. -/
def All (P : Instruction → Prop) : Shape → Prop
  | .nil => True
  | .plain i _ rest => P i ∧ rest.All P
  | .conditional _ body rest | .loop _ body rest => body.All P ∧ rest.All P
  | .choice _ body other rest => body.All P ∧ other.All P ∧ rest.All P

/-- A weaker property. -/
theorem All.mono {Q : Instruction → Prop} (hPQ : ∀ i, P i → Q i) (h : s.All P) : s.All Q := by
  induction s with
  | nil => trivial
  | plain i hi rest ih => exact ⟨hPQ i h.1, ih h.2⟩
  | conditional test body rest ihbody ihrest | loop test body rest ihbody ihrest =>
    exact ⟨ihbody h.1, ihrest h.2⟩
  | choice test body other rest ihbody ihother ihrest =>
    exact ⟨ihbody h.1, ihother h.2.1, ihrest h.2.2⟩

theorem all_append : (s.append t).All P ↔ s.All P ∧ t.All P := by
  induction s with
  | nil => simp [append, All]
  | plain _ _ _ ih | conditional _ _ _ _ ih | choice _ _ _ _ _ _ ih | loop _ _ _ _ ih =>
    simp [append, All, ih, and_assoc]

/-- Skips of two shapes, one behind the other. -/
theorem fits_append : (s.append t).Fits ↔ s.Fits ∧ t.Fits := by
  induction s with
  | nil => simp [append, Fits]
  | plain i hi rest ih => simp [append, Fits, ih]
  | conditional test body rest _ ih | choice test body other rest _ _ ih
  | loop test body rest _ ih =>
    simp [append, Fits, ih, and_assoc]

/-- The instructions of two shapes, one behind the other. -/
theorem instructions_append (s t : Shape) :
    (s.append t).instructions = s.instructions ++ t.instructions := by
  induction s with
  | nil => rfl
  | plain _ _ _ ih | conditional _ _ _ _ ih | choice _ _ _ _ _ _ ih | loop _ _ _ _ ih =>
    simp [append, instructions, ih]

@[simp] theorem append_nil (s : Shape) : s.append .nil = s := by
  induction s with
  | nil => rfl
  | plain _ _ _ ih | conditional _ _ _ _ ih | choice _ _ _ _ _ _ ih | loop _ _ _ _ ih =>
    simp [append, ih]

theorem append_assoc (s t u : Shape) : (s.append t).append u = s.append (t.append u) := by
  induction s with
  | nil => rfl
  | plain _ _ _ ih | conditional _ _ _ _ ih | choice _ _ _ _ _ _ ih | loop _ _ _ _ ih =>
    simp [append, ih]

/-- The bytes of two shapes, one behind the other. -/
theorem size_append (s t : Shape) : (s.append t).size = s.size + t.size := by
  induction s with
  | nil => simp [append, size]
  | plain _ _ _ ih | conditional _ _ _ _ ih | choice _ _ _ _ _ _ ih | loop _ _ _ _ ih =>
    simp [append, size, ih, Nat.add_assoc]

/-- A shape has as many bytes as its instructions. -/
@[simp] theorem length_encodeAll_instructions (s : Shape) :
    (encodeAll s.instructions).length = s.size := by
  induction s with
  | nil => rfl
  | plain i hi rest ih => simp [instructions, size, ih]
  | conditional test body rest ihbody ihrest | loop test body rest ihbody ihrest =>
    simp [instructions, size, ihbody, ihrest, Nat.add_assoc]
  | choice test body other rest ihbody ihother ihrest =>
    simp [instructions, size, ihbody, ihother, ihrest, Nat.add_assoc]

/-- Plain instructions one after the other. -/
def straight : (is : List Instruction) → (∀ i ∈ is, i.IsPlain) → Shape
  | [], _ => .nil
  | i :: is, h =>
    .plain i (h i (mem_cons_self ..)) (straight is fun j hj => h j (mem_cons_of_mem _ hj))

/-- Plain instructions as a shape. -/
@[simp] theorem instructions_straight (is : List Instruction) (h : ∀ i ∈ is, i.IsPlain) :
    (straight is h).instructions = is := by
  induction is with
  | nil => rfl
  | cons i is ih => rw [straight, instructions, ih]

theorem fits_straight (is : List Instruction) (h : ∀ i ∈ is, i.IsPlain) : (straight is h).Fits := by
  induction is with
  | nil => trivial
  | cons i is ih => exact ih _

theorem all_straight {h : ∀ i ∈ is, i.IsPlain} (hP : ∀ i ∈ is, P i) : (straight is h).All P := by
  induction is with
  | nil => trivial
  | cons i is ih =>
    exact ⟨hP i (mem_cons_self ..), ih fun j hj => hP j (mem_cons_of_mem _ hj)⟩

/-! ## The listing of a shape -/

/-- **The listing of a shape is structured.** -/
theorem structured_place (h : s.Fits) (offset : Nat) :
    Structured (place offset s.instructions) := by
  induction s generalizing offset with
  | nil => exact .nil
  | plain i hi rest ih => exact .plain hi (ih h _)
  | conditional test body rest ihbody ihrest =>
    obtain ⟨hlen, hbody, hrest⟩ := h
    rw [instructions, place, place_append]
    refine .conditional rfl rfl ?_ (ihbody hbody _) (ihrest hrest _)
    simp only [Decoded.target?, Decoded.stop, toNat_ofNat_of_le hlen, Instruction.width_ifZero,
      length_encodeAll_instructions]
  | choice test body other rest ihbody ihother ihrest =>
    obtain ⟨hlen, hlen', hbody, hother, hrest⟩ := h
    rw [instructions, place, place_append, place, place_append]
    refine .choice rfl rfl rfl ?_ ?_ (ihbody hbody _) (ihother hother _) (ihrest hrest _)
    · simp only [Decoded.target?, Decoded.stop, toNat_ofNat_of_le hlen, Instruction.width_ifZero,
        Instruction.width_jump, length_encodeAll_instructions, Nat.add_assoc]
    · simp only [Decoded.target?, Decoded.stop, toNat_ofNat_of_le hlen', Instruction.width_ifZero,
        Instruction.width_jump, length_encodeAll_instructions]
  | loop test body rest ihbody ihrest =>
    obtain ⟨hlen, hbody, hrest⟩ := h
    rw [instructions, place, place_append]
    refine .loop rfl rfl ?_ (ihbody hbody _) (ihrest hrest _)
    simp only [Decoded.target?, Decoded.stop, toNat_ofNat_of_le hlen, Instruction.width_whileLoop,
      Instruction.width_endWhile, length_encodeAll_instructions, Nat.add_assoc]

/-- A shape has its plain instructions and those of its constructs. -/
theorem forall_mem_instructions (h : s.All P)
    (hif : ∀ (r : Register) skip, P (.ifZero r.byte skip)) (hjump : ∀ distance, P (.jump distance))
    (hwhile : ∀ (r : Register) skip, P (.whileLoop r.byte skip)) (hendIf : P .endIf)
    (hendWhile : P .endWhile) : ∀ i ∈ s.instructions, P i := by
  induction s with
  | nil => simp [instructions]
  | plain i hi rest ih => simpa [instructions] using ⟨h.1, ih h.2⟩
  | conditional test body rest ihbody ihrest =>
    have hbody := ihbody h.1
    have hrest := ihrest h.2
    simp only [instructions, mem_cons, mem_append]
    rintro i (rfl | hi | rfl | hi)
    · exact hif ..
    · exact hbody i hi
    · exact hendIf
    · exact hrest i hi
  | choice test body other rest ihbody ihother ihrest =>
    have hbody := ihbody h.1
    have hother := ihother h.2.1
    have hrest := ihrest h.2.2
    simp only [instructions, mem_cons, mem_append]
    rintro i (rfl | hi | rfl | hi | rfl | hi)
    · exact hif ..
    · exact hbody i hi
    · exact hjump _
    · exact hother i hi
    · exact hendIf
    · exact hrest i hi
  | loop test body rest ihbody ihrest =>
    have hbody := ihbody h.1
    have hrest := ihrest h.2
    simp only [instructions, mem_cons, mem_append]
    rintro i (rfl | hi | rfl | hi)
    · exact hwhile ..
    · exact hbody i hi
    · exact hendWhile
    · exact hrest i hi

end Shape

end ImpMachine
