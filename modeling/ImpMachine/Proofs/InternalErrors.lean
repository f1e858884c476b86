import ImpMachine.Proofs.CallCycles
import ImpMachine.Proofs.CallSites

/-!
# What can stop assembly

A step of assembly gives its result or stops with a fault of the program (`Gives`), never with an
error of assembly itself. These are the steps around the two passes: the signatures and the search
for recursion before them, the symbol table and the operand bytes behind them. Every operand byte
that waits for a skip lies before the target that the skip has (`Draft.gives_fixupValue`).
-/

namespace ImpMachine

open List

variable {fixup : Fixup} {b : Buffer} {offset : Nat} {pieces : List Piece}

/-- The computation gives a result with the property, or what stops it is a fault of the program. -/
def Gives {α : Type} (x : Except AssembleError α) (Q : α → Prop) : Prop :=
  match x with
  | .ok a => Q a
  | .error e => ¬e.IsRuledOut

namespace Gives

variable {σ α β : Type} {x : Except AssembleError α} {Q : α → Prop} {R : β × σ → Prop}

theorem eq_ok (h : Gives x Q) {a : α} (hx : x = .ok a) : Q a := by
  subst hx
  exact h

/-- What stops the computation is a fault of the program. -/
theorem not_isRuledOut (h : Gives x Q) {e : AssembleError} (hx : x = .error e) : ¬e.IsRuledOut := by
  subst hx
  exact h

theorem mono {R : α → Prop} (h : Gives x Q) (hQR : ∀ a, Q a → R a) : Gives x R := by
  cases x with
  | error e => exact h
  | ok a => exact hQR a h

theorem eq_and (h : Gives x Q) : Gives x fun a => x = .ok a ∧ Q a := by
  cases x with
  | error e => exact h
  | ok a => exact ⟨rfl, h⟩

theorem bind {f : α → Except AssembleError β} {R : β → Prop} (hx : Gives x Q)
    (hf : ∀ a, Q a → Gives (f a) R) : Gives (x >>= f) R := by
  cases x with
  | error e => exact hx
  | ok a => exact hf a hx

variable {m : StateT σ (Except AssembleError) α} {f : α → StateT σ (Except AssembleError) β} {t : σ}

/-- One computation behind the other. -/
theorem run {Q : α × σ → Prop} (hm : Gives (m t) Q) (hf : ∀ a t', Q (a, t') → Gives (f a t') R) :
    Gives ((m >>= f) t) R :=
  Gives.bind hm fun r => hf r.1 r.2

theorem after {a : α} {t' : σ} (hm : m t = .ok (a, t')) (hf : Gives (f a t') R) :
    Gives ((m >>= f) t) R := by
  rw [Assembly.bind_apply, hm]
  exact hf

theorem run' (h : Gives (m t) fun r => Q r.1) : Gives (m.run' t) Q := by
  change Gives (Except.map Prod.fst (m t)) Q
  cases hm : m t with
  | error e => exact h.not_isRuledOut hm
  | ok r => exact h.eq_ok hm

end Gives

/-! ## Filling in -/

namespace Buffer

theorem gives_skipValue {target : Nat} (htarget : fixup.base ≤ target) :
    Gives (skipValue fixup (some target)) fun _ => True := by
  simp only [skipValue, Nat.not_lt.2 htarget, if_false]
  split
  · exact id
  · trivial

theorem gives_call (b : Buffer) (callee : String) (position base : Nat) :
    Gives (b.fixupValue ⟨.call callee, position, base⟩) fun _ => True := by
  simp only [fixupValue]
  split
  · exact id
  · split
    · exact id
    · trivial

/-- Filling in goes on as long as operand bytes in the code have values. -/
theorem gives_fillAll {fixups : List Fixup} (hin : ∀ fixup ∈ fixups, fixup.position < b.code.size)
    (hvalues : ∀ fixup ∈ fixups, Gives (b.fixupValue fixup) fun _ => True) :
    Gives (b.fillAll fixups).2 fun _ => (b.fillAll fixups).1.labels = b.labels ∧
      ∀ fixup ∈ fixups, ∃ v, b.fixupValue fixup = .ok v := by
  induction fixups generalizing b with
  | nil => exact ⟨rfl, forall_mem_nil _⟩
  | cons fixup rest ih =>
    obtain ⟨hfixup, hrest⟩ := forall_mem_cons.1 hin
    obtain ⟨hvalue, hvalues⟩ := forall_mem_cons.1 hvalues
    cases hv : b.fixupValue fixup with
    | error e =>
      have hfill : b.fill fixup = .error e := by
        rw [fill, hv]
        rfl
      rw [fillAll, hfill]
      exact hvalue.not_isRuledOut hv
    | ok v =>
      have hfill : b.fill fixup =
          .ok { b with code := b.code.setIfInBounds fixup.position (UInt8.ofNat v) } := by
        rw [fill, hv]
        exact if_pos hfixup
      rw [fillAll, hfill]
      -- the values depend on labels and bounds only
      refine (ih (b := { b with code := b.code.setIfInBounds fixup.position (UInt8.ofNat v) })
        (by simpa using hrest) hvalues).mono ?_
      rintro _ ⟨hlabels, hrest⟩
      exact ⟨hlabels, forall_mem_cons.2 ⟨⟨v, hv⟩, hrest⟩⟩

end Buffer

namespace Assembly

open Linear

/-- Operand bytes to fill in lie in the code. -/
theorem position_lt_of_mem_fixupsAt (h : fixup ∈ fixupsAt offset pieces) :
    fixup.position < offset + (pieceBytes pieces).length := by
  induction pieces generalizing offset with
  | nil => cases h
  | cons p pieces ih =>
    have hwidth : 0 < p.instruction.width := p.instruction.width_pos
    rw [pieceBytes_cons, length_append, Instruction.length_encode]
    rcases mem_append.1 h with h | h
    · obtain ⟨kind, -, rfl⟩ := Option.map_eq_some_iff.1 (Option.mem_toList.1 h)
      dsimp only
      omega
    · have hlt := ih h
      omega

theorem exists_call_of_mem_fixupsAt
    (hcalls : ∀ p ∈ pieces, ∀ kind, p.fixup = some kind → ∃ callee, kind = .call callee)
    (h : fixup ∈ fixupsAt offset pieces) : ∃ callee, fixup.kind = .call callee := by
  induction pieces generalizing offset with
  | nil => cases h
  | cons p pieces ih =>
    obtain ⟨hp, hpieces⟩ := forall_mem_cons.1 hcalls
    rcases mem_append.1 h with h | h
    · obtain ⟨kind, hkind, rfl⟩ := Option.map_eq_some_iff.1 (Option.mem_toList.1 h)
      exact hp kind hkind
    · exact ih hpieces h

/-- **What operand bytes wait for**: a skip can be too long, a call miss its function. -/
theorem Draft.gives_fixupValue {d : Draft} {first : Nat}
    (hblocks : b.HasBlocks first (d.bounds offset))
    (hcalls : ∀ p ∈ d.leaves, ∀ kind, p.fixup = some kind → ∃ callee, kind = .call callee) :
    ∀ fixup ∈ fixupsAt offset (d.pieces first), Gives (b.fixupValue fixup) fun _ => True := by
  induction d generalizing first offset with
  | nil => exact forall_mem_nil _
  | code pieces rest ih =>
    simp only [leaves, forall_mem_append] at hcalls
    rw [Draft.pieces, fixupsAt_append]
    refine forall_mem_append.2 ⟨fun fixup h => ?_, ih hblocks hcalls.2⟩
    obtain ⟨callee, hkind⟩ := exists_call_of_mem_fixupsAt hcalls.1 h
    obtain ⟨kind, position, base⟩ := fixup
    cases hkind
    exact b.gives_call callee position base
  | conditional test body rest ihbody ihrest | loop test body rest ihbody ihrest =>
    simp only [leaves, forall_mem_append] at hcalls
    obtain ⟨hbounds, hblocks⟩ := hblocks.cons
    obtain ⟨hbody, hrest⟩ := hblocks.append
    rw [length_bounds] at hrest
    refine forall_mem_append.2 ⟨forall_mem_singleton.2 ?_, ?_⟩
    · simp only [Buffer.fixupValue, hbounds]
      exact Buffer.gives_skipValue (by change offset + 3 ≤ _; omega)
    · rw [fixupsAt_append, length_pieceBytes_pieces]
      exact forall_mem_append.2 ⟨ihbody hbody hcalls.1, ihrest hrest hcalls.2⟩
  | choice test body other rest ihbody ihother ihrest =>
    simp only [leaves, forall_mem_append] at hcalls
    obtain ⟨hbounds, hblocks⟩ := hblocks.cons
    obtain ⟨hbody, hblocks⟩ := hblocks.append
    obtain ⟨hother, hrest⟩ := hblocks.append
    rw [length_bounds] at hother hrest
    rw [length_bounds] at hrest
    refine forall_mem_append.2 ⟨forall_mem_singleton.2 ?_, ?_⟩
    · simp only [Buffer.fixupValue, hbounds]
      exact Buffer.gives_skipValue (by change offset + 3 ≤ _; omega)
    · rw [fixupsAt_append, length_pieceBytes_pieces]
      refine forall_mem_append.2 ⟨ihbody hbody hcalls.1,
        forall_mem_append.2 ⟨forall_mem_singleton.2 ?_, ?_⟩⟩
      · simp only [Buffer.fixupValue, hbounds]
        exact Buffer.gives_skipValue (Nat.le_add_right _ _)
      · rw [fixupsAt_append, length_pieceBytes_pieces]
        exact forall_mem_append.2 ⟨ihother hother hcalls.2.1, ihrest hrest hcalls.2.2⟩

/-! ## Signatures, recursion and symbols -/

/-- The signatures are in the order of the functions, and no name has two. -/
theorem gives_signaturesFrom (known : Signatures) (functions : List Function)
    (hknown : (known.map Prod.fst).Nodup) :
    Gives (signaturesFrom known functions) fun result =>
      result = known ++ functions.map (fun f => (f.name, f.params)) ∧
        (result.map Prod.fst).Nodup := by
  induction functions generalizing known with
  | nil => exact ⟨(append_nil _).symm, hknown⟩
  | cons f functions ih =>
    rw [signaturesFrom]
    split
    · exact id
    · rename_i hfresh
      have hnone : known.lookup f.name = none := Option.not_isSome_iff_eq_none.1 hfresh
      have hnames : ((known ++ [(f.name, f.params)]).map Prod.fst).Nodup := by
        rw [map_append, nodup_append]
        refine ⟨hknown, pairwise_singleton _ _, ?_⟩
        intro name hname other hother heq
        obtain ⟨entry, hentry, rfl⟩ := mem_map.1 hname
        have hne := lookup_eq_none_iff.1 hnone entry hentry
        rw [heq, mem_singleton.1 hother] at hne
        simp at hne
      refine (ih _ hnames).mono ?_
      rintro _ ⟨rfl, hnodup⟩
      exact ⟨by rw [map_cons, append_assoc, singleton_append], hnodup⟩

/-- Functions have one signature each, in their order. -/
theorem gives_signatures (rs : List Routine) :
    Gives (signatures (rs.map Routine.function)) fun result =>
      result = rs.map (fun r => (r.name, r.params)) ∧ (rs.map Routine.name).Nodup := by
  refine (gives_signaturesFrom [] _ nodup_nil).mono ?_
  rintro _ ⟨rfl, hnodup⟩
  rw [nil_append, map_map] at hnodup ⊢
  rw [map_map] at hnodup
  exact ⟨rfl, hnodup⟩

/-- Every function with an address has a signature. -/
theorem declares_of_signatures {rs : List Routine} {result : Signatures}
    (h : signatures (rs.map Routine.function) = .ok result) (offsets : List Nat) :
    FunctionTable.Declares ⟨result, (rs.map Routine.name).zip offsets⟩ := by
  intro callee hnone
  obtain ⟨rfl, -⟩ := (gives_signatures rs).eq_ok h
  refine lookup_eq_none_iff.2 fun entry hentry => ?_
  obtain ⟨r, hr, hname⟩ := mem_map.1 (of_mem_zip hentry).1
  rw [← hname]
  exact lookup_eq_none_iff.1 hnone (r.name, r.params) (mem_map.2 ⟨r, hr, rfl⟩)

theorem gives_checkRecursion (functions : List Function) :
    Gives (checkRecursion functions) fun _ => True := by
  cases h : checkRecursion functions with
  | error e =>
    obtain ⟨cycle, rfl, -⟩ := callCycle_of_checkRecursion h
    exact id
  | ok => trivial

/-- Labels that fit an address have symbols. -/
theorem gives_symbolTable (labels : List (String × Nat)) :
    Gives (symbolTable labels) fun _ => ∀ label ∈ labels, label.2 ≤ maxAddress := by
  unfold symbolTable
  generalize Symbols.empty = table
  induction labels generalizing table with
  | nil => exact forall_mem_nil _
  | cons label labels ih =>
    rw [foldlM_cons]
    refine Gives.bind (Q := fun _ => label.2 ≤ maxAddress) ?_ fun table' hle =>
      (ih table').mono fun _ h => forall_mem_cons.2 ⟨hle, h⟩
    dsimp only
    split
    · exact id
    · rename_i hle
      exact Nat.le_of_not_lt hle

end Assembly

end ImpMachine
