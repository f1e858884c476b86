import ImpMachine.Proofs.Shape

/-!
# Where control is in a shape

An instruction of a shape stands inside loops, and the machine keeps the starts of those that it
entered. The two agree at every moment (`Shape.At`): a step from an instruction of a shape, other
than a call, a return or a stop, leads to another of its instructions or just behind the shape, and
the loops entered are then those around that place (`At.moves`).
-/

namespace ImpMachine

open List

variable {m : Machine} {i : Instruction} {outer : List Nat}

/-- The offset and the entered loops after an instruction that neither calls nor returns. Loops are
listed by their starts, innermost first. -/
inductive Instruction.Moves : Instruction → Nat → List Nat → Nat → List Nat → Prop where
  | plain {i : Instruction} {pc : Nat} {starts : List Nat} :
      i.IsPlain → Moves i pc starts (pc + i.width) starts
  | ifEnter {r skip : UInt8} {pc : Nat} {starts : List Nat} :
      Moves (.ifZero r skip) pc starts (pc + 3) starts
  | ifSkip {r skip : UInt8} {pc : Nat} {starts : List Nat} :
      Moves (.ifZero r skip) pc starts (pc + 3 + skip.toNat) starts
  | jump {distance : UInt8} {pc : Nat} {starts : List Nat} :
      Moves (.jump distance) pc starts (pc + 2 + distance.toNat) starts
  | endIf {pc : Nat} {starts : List Nat} : Moves .endIf pc starts (pc + 1) starts
  | whileEnter {r skip : UInt8} {pc : Nat} {starts : List Nat} :
      Moves (.whileLoop r skip) pc starts (pc + 3) (pc :: starts)
  | whileSkip {r skip : UInt8} {pc : Nat} {starts : List Nat} :
      Moves (.whileLoop r skip) pc starts (pc + 3 + skip.toNat) starts
  | again {pc start : Nat} {starts : List Nat} : Moves .endWhile pc (start :: starts) start starts
  | done {pc start : Nat} {starts : List Nat} :
      Moves .endWhile pc (start :: starts) (pc + 1) starts

namespace Machine

/-- The starts of the entered loops, innermost first. -/
def loopStarts (m : Machine) : List Nat := m.loops.map (·.start)

/-- Executing an instruction other than a call or a return is one of its moves. -/
theorem moves_execute (codeLength : Nat) (hcall : ∀ addr, i ≠ .call addr)
    (hret : i ≠ .ret) (hloop : i = .endWhile → m.loopStarts ≠ []) :
    i.Moves m.pc m.loopStarts (m.execute codeLength i).pc (m.execute codeLength i).loopStarts := by
  cases i with
  | mov | arith | out | halt => exact .plain trivial
  | call addr => exact (hcall addr rfl).elim
  | ret => exact (hret rfl).elim
  | ifZero r skip =>
    simp only [execute]
    split
    · exact .ifSkip
    · exact .ifEnter
  | jump distance => exact .jump
  | endIf => exact .endIf
  | whileLoop r skip =>
    simp only [execute]
    split
    · exact .whileSkip
    · exact .whileEnter
  | endWhile =>
    cases hentries : m.loops with
    | nil => exact (hloop rfl (by rw [loopStarts, hentries]; rfl)).elim
    | cons entry loops =>
      rw [execute_endWhile_of_cons codeLength hentries]
      simp only [loopStarts, hentries, map_cons]
      split
      · exact .done
      · exact .again

/-- Only calls and returns change the call stack. -/
theorem calls_execute_of_ne (codeLength : Nat) (hcall : ∀ addr, i ≠ .call addr)
    (hret : i ≠ .ret) : (m.execute codeLength i).calls = m.calls := by
  cases i with
  | mov | arith | out | jump | endIf | halt => rfl
  | call addr => exact (hcall addr rfl).elim
  | ret => exact (hret rfl).elim
  | ifZero reg skip | whileLoop reg skip =>
    simp only [execute]
    split <;> rfl
  | endWhile =>
    simp only [execute, endLoop]
    split <;> rfl

end Machine

/-! ## Places in a shape -/

namespace Shape

/-- The shape stands at `base` and has the instruction at `pc`, inside the loops with these starts,
innermost first. -/
inductive At : Shape → (base pc : Nat) → Instruction → List Nat → Prop where
  | plain {i : Instruction} {hi : i.IsPlain} {rest : Shape} {base : Nat} :
      At (.plain i hi rest) base base i []
  | plainRest {i j : Instruction} {hi : i.IsPlain} {rest : Shape} {base pc : Nat}
      {starts : List Nat} :
      At rest (base + i.width) pc j starts → At (.plain i hi rest) base pc j starts
  | ifHead {test : Register} {body rest : Shape} {base : Nat} :
      At (.conditional test body rest) base base (.ifZero test.byte (UInt8.ofNat body.size)) []
  | ifBody {test : Register} {body rest : Shape} {base pc : Nat} {i : Instruction}
      {starts : List Nat} :
      At body (base + 3) pc i starts → At (.conditional test body rest) base pc i starts
  | ifEnd {test : Register} {body rest : Shape} {base : Nat} :
      At (.conditional test body rest) base (base + 3 + body.size) .endIf []
  | ifRest {test : Register} {body rest : Shape} {base pc : Nat} {i : Instruction}
      {starts : List Nat} :
      At rest (base + 3 + body.size + 1) pc i starts →
      At (.conditional test body rest) base pc i starts
  | choiceHead {test : Register} {body other rest : Shape} {base : Nat} :
      At (.choice test body other rest) base base
        (.ifZero test.byte (UInt8.ofNat (body.size + 2))) []
  | choiceBody {test : Register} {body other rest : Shape} {base pc : Nat} {i : Instruction}
      {starts : List Nat} :
      At body (base + 3) pc i starts → At (.choice test body other rest) base pc i starts
  | choiceMiddle {test : Register} {body other rest : Shape} {base : Nat} :
      At (.choice test body other rest) base (base + 3 + body.size)
        (.jump (UInt8.ofNat other.size)) []
  | choiceOther {test : Register} {body other rest : Shape} {base pc : Nat} {i : Instruction}
      {starts : List Nat} :
      At other (base + 3 + body.size + 2) pc i starts →
      At (.choice test body other rest) base pc i starts
  | choiceEnd {test : Register} {body other rest : Shape} {base : Nat} :
      At (.choice test body other rest) base (base + 3 + body.size + 2 + other.size) .endIf []
  | choiceRest {test : Register} {body other rest : Shape} {base pc : Nat} {i : Instruction}
      {starts : List Nat} :
      At rest (base + 3 + body.size + 2 + other.size + 1) pc i starts →
      At (.choice test body other rest) base pc i starts
  | loopHead {test : Register} {body rest : Shape} {base : Nat} :
      At (.loop test body rest) base base (.whileLoop test.byte (UInt8.ofNat (body.size + 1))) []
  | loopBody {test : Register} {body rest : Shape} {base pc : Nat} {i : Instruction}
      {starts : List Nat} :
      At body (base + 3) pc i starts → At (.loop test body rest) base pc i (starts ++ [base])
  | loopEnd {test : Register} {body rest : Shape} {base : Nat} :
      At (.loop test body rest) base (base + 3 + body.size) .endWhile [base]
  | loopRest {test : Register} {body rest : Shape} {base pc : Nat} {i : Instruction}
      {starts : List Nat} :
      At rest (base + 3 + body.size + 1) pc i starts → At (.loop test body rest) base pc i starts

/-- The offset is one of the shape's instructions or just behind them, inside the given loops. -/
def Reaches (s : Shape) (base pc : Nat) (starts : List Nat) : Prop :=
  (∃ i, s.At base pc i starts) ∨ (pc = base + s.size ∧ starts = [])

theorem reaches_start (s : Shape) (base : Nat) : s.Reaches base base [] := by
  cases s with
  | nil => exact .inr ⟨rfl, rfl⟩
  | plain => exact .inl ⟨_, .plain⟩
  | conditional => exact .inl ⟨_, .ifHead⟩
  | choice => exact .inl ⟨_, .choiceHead⟩
  | loop => exact .inl ⟨_, .loopHead⟩

/-! ## Places of parts -/

variable {base pc : Nat} {starts : List Nat} {test : Register} {body other rest : Shape}

theorem reaches_plain {hi : i.IsPlain} (h : rest.Reaches (base + i.width) pc starts) :
    (Shape.plain i hi rest).Reaches base pc starts := by
  rcases h with ⟨j, h⟩ | ⟨rfl, rfl⟩
  · exact .inl ⟨j, .plainRest h⟩
  · exact .inr ⟨Nat.add_assoc .., rfl⟩

theorem reaches_ifBody (h : body.Reaches (base + 3) pc starts) :
    (conditional test body rest).Reaches base pc starts := by
  rcases h with ⟨i, h⟩ | ⟨rfl, rfl⟩
  · exact .inl ⟨i, .ifBody h⟩
  · exact .inl ⟨_, .ifEnd⟩

theorem reaches_ifRest (h : rest.Reaches (base + 3 + body.size + 1) pc starts) :
    (conditional test body rest).Reaches base pc starts := by
  rcases h with ⟨i, h⟩ | ⟨rfl, rfl⟩
  · exact .inl ⟨i, .ifRest h⟩
  · exact .inr ⟨by simp only [size]; omega, rfl⟩

theorem reaches_choiceBody (h : body.Reaches (base + 3) pc starts) :
    (choice test body other rest).Reaches base pc starts := by
  rcases h with ⟨i, h⟩ | ⟨rfl, rfl⟩
  · exact .inl ⟨i, .choiceBody h⟩
  · exact .inl ⟨_, .choiceMiddle⟩

theorem reaches_choiceOther (h : other.Reaches (base + 3 + body.size + 2) pc starts) :
    (choice test body other rest).Reaches base pc starts := by
  rcases h with ⟨i, h⟩ | ⟨rfl, rfl⟩
  · exact .inl ⟨i, .choiceOther h⟩
  · exact .inl ⟨_, .choiceEnd⟩

theorem reaches_choiceRest
    (h : rest.Reaches (base + 3 + body.size + 2 + other.size + 1) pc starts) :
    (choice test body other rest).Reaches base pc starts := by
  rcases h with ⟨i, h⟩ | ⟨rfl, rfl⟩
  · exact .inl ⟨i, .choiceRest h⟩
  · exact .inr ⟨by simp only [size]; omega, rfl⟩

theorem reaches_loopBody (h : body.Reaches (base + 3) pc starts) :
    (loop test body rest).Reaches base pc (starts ++ [base]) := by
  rcases h with ⟨i, h⟩ | ⟨rfl, rfl⟩
  · exact .inl ⟨i, .loopBody h⟩
  · exact .inl ⟨_, .loopEnd⟩

theorem reaches_loopRest (h : rest.Reaches (base + 3 + body.size + 1) pc starts) :
    (loop test body rest).Reaches base pc starts := by
  rcases h with ⟨i, h⟩ | ⟨rfl, rfl⟩
  · exact .inl ⟨i, .loopRest h⟩
  · exact .inr ⟨by simp only [size]; omega, rfl⟩

/-! ## What is known of a place -/

namespace At

variable {s : Shape}

/-- What stands at a place is among the instructions. -/
theorem mem_place (h : s.At base pc i starts) : ⟨pc, i⟩ ∈ place base s.instructions := by
  induction h <;> simp_all [instructions, place, place_append]

/-- The plain instruction at a place has what all plain instructions have. -/
theorem of_all {P : Instruction → Prop} (h : s.At base pc i starts) (hplain : i.IsPlain)
    (hall : s.All P) : P i := by
  induction h with
  | plain => exact hall.1
  | ifHead | ifEnd | choiceHead | choiceMiddle | choiceEnd | loopHead | loopEnd => cases hplain
  | plainRest _ ih | ifRest _ ih | loopRest _ ih => exact ih hplain hall.2
  | ifBody _ ih | choiceBody _ ih | loopBody _ ih => exact ih hplain hall.1
  | choiceOther _ ih => exact ih hplain hall.2.1
  | choiceRest _ ih => exact ih hplain hall.2.2

/-- The end mark of a loop stands inside a loop. -/
theorem starts_ne_nil (h : s.At base pc i starts) (hend : i = .endWhile) : starts ≠ [] := by
  induction h with
  | plain =>
    rename_i hi _ _
    subst hend
    cases hi
  | ifHead | ifEnd | choiceHead | choiceMiddle | choiceEnd | loopHead => cases hend
  | loopEnd => exact cons_ne_nil _ _
  | loopBody => exact append_ne_nil_of_right_ne_nil _ (cons_ne_nil _ _)
  | plainRest _ ih | ifBody _ ih | ifRest _ ih | choiceBody _ ih | choiceOther _ ih
  | choiceRest _ ih | loopRest _ ih => exact ih hend

/-- What the machine does at a place, inside any loops around the shape. -/
theorem moves_execute (h : s.At base m.pc i starts) (hloops : m.loopStarts = starts ++ outer)
    (hcall : ∀ addr, i ≠ .call addr) (hret : i ≠ .ret) (codeLength : Nat) :
    i.Moves m.pc (starts ++ outer) (m.execute codeLength i).pc
      (m.execute codeLength i).loopStarts := by
  rw [← hloops]
  refine Machine.moves_execute codeLength hcall hret fun hend => ?_
  rw [hloops]
  exact append_ne_nil_of_left_ne_nil (h.starts_ne_nil hend) _

/-- **A step stays in the shape**, inside any loops around it. -/
theorem moves {next : List Nat} {pc' : Nat} (h : s.At base pc i starts) (hfits : s.Fits)
    (hmoves : i.Moves pc (starts ++ outer) pc' next) :
    ∃ starts', next = starts' ++ outer ∧ s.Reaches base pc' starts' := by
  induction h generalizing outer with
  | plain =>
    rename_i i hi rest base
    cases hmoves with
    | plain => exact ⟨[], rfl, reaches_plain (rest.reaches_start _)⟩
    | _ => cases hi
  | ifHead =>
    rename_i test body rest base
    cases hmoves with
    | plain hplain => cases hplain
    | ifEnter => exact ⟨[], rfl, reaches_ifBody (body.reaches_start _)⟩
    | ifSkip =>
      rw [toNat_ofNat_of_le hfits.1]
      exact ⟨[], rfl, .inl ⟨_, .ifEnd⟩⟩
  | ifEnd =>
    rename_i test body rest base
    cases hmoves with
    | plain hplain => cases hplain
    | endIf => exact ⟨[], rfl, reaches_ifRest (rest.reaches_start _)⟩
  | choiceHead =>
    rename_i test body other rest base
    cases hmoves with
    | plain hplain => cases hplain
    | ifEnter => exact ⟨[], rfl, reaches_choiceBody (body.reaches_start _)⟩
    | ifSkip =>
      rw [toNat_ofNat_of_le hfits.1, ← Nat.add_assoc]
      exact ⟨[], rfl, reaches_choiceOther (other.reaches_start _)⟩
  | choiceMiddle =>
    rename_i test body other rest base
    cases hmoves with
    | plain hplain => cases hplain
    | jump =>
      rw [toNat_ofNat_of_le hfits.2.1]
      exact ⟨[], rfl, .inl ⟨_, .choiceEnd⟩⟩
  | choiceEnd =>
    rename_i test body other rest base
    cases hmoves with
    | plain hplain => cases hplain
    | endIf => exact ⟨[], rfl, reaches_choiceRest (rest.reaches_start _)⟩
  | loopHead =>
    rename_i test body rest base
    cases hmoves with
    | plain hplain => cases hplain
    | whileEnter => exact ⟨[base], rfl, reaches_loopBody (body.reaches_start _)⟩
    | whileSkip =>
      rw [toNat_ofNat_of_le hfits.1, ← Nat.add_assoc]
      exact ⟨[], rfl, reaches_loopRest (rest.reaches_start _)⟩
  | loopEnd =>
    rename_i test body rest base
    cases hmoves with
    | plain hplain => cases hplain
    | again => exact ⟨[], rfl, reaches_start _ _⟩
    | done => exact ⟨[], rfl, reaches_loopRest (rest.reaches_start _)⟩
  | loopBody _ ih =>
    -- the loop itself is one of those around its body
    rw [List.append_assoc] at hmoves
    obtain ⟨starts', rfl, hreaches⟩ := ih hfits.2.1 hmoves
    exact ⟨_, (List.append_assoc ..).symm, reaches_loopBody hreaches⟩
  | plainRest _ ih =>
    obtain ⟨starts', rfl, hreaches⟩ := ih hfits hmoves
    exact ⟨_, rfl, reaches_plain hreaches⟩
  | ifBody _ ih =>
    obtain ⟨starts', rfl, hreaches⟩ := ih hfits.2.1 hmoves
    exact ⟨_, rfl, reaches_ifBody hreaches⟩
  | ifRest _ ih =>
    obtain ⟨starts', rfl, hreaches⟩ := ih hfits.2.2 hmoves
    exact ⟨_, rfl, reaches_ifRest hreaches⟩
  | choiceBody _ ih =>
    obtain ⟨starts', rfl, hreaches⟩ := ih hfits.2.2.1 hmoves
    exact ⟨_, rfl, reaches_choiceBody hreaches⟩
  | choiceOther _ ih =>
    obtain ⟨starts', rfl, hreaches⟩ := ih hfits.2.2.2.1 hmoves
    exact ⟨_, rfl, reaches_choiceOther hreaches⟩
  | choiceRest _ ih =>
    obtain ⟨starts', rfl, hreaches⟩ := ih hfits.2.2.2.2 hmoves
    exact ⟨_, rfl, reaches_choiceRest hreaches⟩
  | loopRest _ ih =>
    obtain ⟨starts', rfl, hreaches⟩ := ih hfits.2.2 hmoves
    exact ⟨_, rfl, reaches_loopRest hreaches⟩

end At

end Shape

end ImpMachine
