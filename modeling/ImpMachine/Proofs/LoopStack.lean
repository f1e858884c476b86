import ImpMachine.Proofs.NoFaults

/-!
# The loops that the machine is in

The machine pushes a loop when it enters its body and pops one at an end mark, without looking at
where either stands. In assembled code the stack is nevertheless a function of the code: since the
current call it holds exactly the loops of the listing around the offset of the machine (`enclosing`),
and below those, call by call, the loops around the offsets at which the callers go on. So an end
mark pops the loop that it ends, a call leaves the loops of its callers alone, and where the code
stops both stacks are empty (`assemble_loop_discipline`).
-/

namespace ImpMachine

open Assembly List

variable {d : Decoded} {config : RunConfig} {pc base : Nat} {entry : LoopEntry} {m : Machine}
variable {i : Instruction} {image : Image} {l : Linked image} {starts : List Nat}

/-! ## Loops around an offset -/

/-- The entry of a loop of the listing, if the offset lies in its body or at its end mark. -/
def Decoded.around? (pc : Nat) (d : Decoded) : Option LoopEntry :=
  match d.instruction with
  | .whileLoop register skip =>
    if d.offset < pc ∧ pc < d.stop + skip.toNat then some ⟨register, d.offset⟩ else none
  | _ => none

/-- The loops of a listing around an offset, outermost first. -/
def enclosing (decoded : List Decoded) (pc : Nat) : List LoopEntry :=
  decoded.filterMap (·.around? pc)

theorem around?_eq_some (h : d.around? pc = some entry) :
    ∃ skip, d = ⟨entry.start, .whileLoop entry.register skip⟩ ∧ entry.start < pc ∧
      pc < entry.start + 3 + skip.toNat := by
  obtain ⟨offset, i⟩ := d
  unfold Decoded.around? at h
  split at h
  · rename_i register skip hi
    split at h
    · rename_i hpc
      cases h
      cases hi
      exact ⟨skip, rfl, hpc.1, hpc.2⟩
    · cases h
  · cases h

theorem enclosing_append (ds es : List Decoded) (pc : Nat) :
    enclosing (ds ++ es) pc = enclosing ds pc ++ enclosing es pc :=
  filterMap_append

/-- Only loops are around anything. -/
theorem enclosing_cons_of_not (h : ∀ r skip, d.instruction ≠ .whileLoop r skip) (ds : List Decoded)
    (pc : Nat) : enclosing (d :: ds) pc = enclosing ds pc := by
  have hnone : d.around? pc = none := by
    unfold Decoded.around?
    split
    · rename_i r skip hi
      exact (h r skip hi).elim
    · rfl
  simp [enclosing, hnone]

theorem le_offset_of_mem_place {offset : Nat} {is : List Instruction} (h : d ∈ place offset is) :
    offset ≤ d.offset := by
  obtain ⟨before, after, -, hoffset⟩ := mem_place_iff.1 h
  omega

theorem enclosing_place_of_le (h : pc ≤ base) (is : List Instruction) :
    enclosing (place base is) pc = [] := by
  refine filterMap_eq_nil_iff.2 fun d hd => ?_
  by_contra hne
  obtain ⟨entry, hentry⟩ := Option.ne_none_iff_exists'.1 hne
  obtain ⟨skip, rfl, hstart, -⟩ := around?_eq_some hentry
  have hle := le_offset_of_mem_place hd
  simp only at hle
  omega

namespace Shape

variable {s : Shape}

theorem enclosing_conditional (test : Register) (body rest : Shape) (base pc : Nat) :
    enclosing (place base (conditional test body rest).instructions) pc =
      enclosing (place (base + 3) body.instructions) pc ++
        enclosing (place (base + 3 + body.size + 1) rest.instructions) pc := by
  rw [instructions, place, place_append, place, enclosing_cons_of_not (by simp), enclosing_append,
    enclosing_cons_of_not (by simp)]
  simp

theorem enclosing_choice (test : Register) (body other rest : Shape) (base pc : Nat) :
    enclosing (place base (choice test body other rest).instructions) pc =
      enclosing (place (base + 3) body.instructions) pc ++
        (enclosing (place (base + 3 + body.size + 2) other.instructions) pc ++
          enclosing (place (base + 3 + body.size + 2 + other.size + 1) rest.instructions) pc) := by
  rw [instructions, place, place_append, place, place_append, place,
    enclosing_cons_of_not (by simp), enclosing_append, enclosing_cons_of_not (by simp),
    enclosing_append, enclosing_cons_of_not (by simp)]
  simp

/-- A loop is around its body and its end mark. -/
theorem enclosing_loop {test : Register} {body rest : Shape} (hlen : body.size + 1 ≤ maxAddress)
    (base pc : Nat) :
    enclosing (place base (loop test body rest).instructions) pc =
      (if base < pc ∧ pc < base + 3 + body.size + 1 then [⟨test.byte, base⟩] else []) ++
        (enclosing (place (base + 3) body.instructions) pc ++
          enclosing (place (base + 3 + body.size + 1) rest.instructions) pc) := by
  have hhead : Decoded.around? pc
      ⟨base, .whileLoop test.byte (UInt8.ofNat (body.size + 1))⟩ =
      if base < pc ∧ pc < base + 3 + body.size + 1 then some ⟨test.byte, base⟩ else none := by
    simp only [Decoded.around?, Decoded.stop, Instruction.width_whileLoop,
      toNat_ofNat_of_le hlen, Nat.add_assoc]
  rw [instructions, place, place_append, place, enclosing, filterMap_cons, hhead]
  split
  · rename_i hsplit
    split at hsplit
    · cases hsplit
    · rename_i hout
      rw [if_neg hout]
      change enclosing _ pc = _
      rw [enclosing_append, enclosing_cons_of_not (by simp)]
      simp
  · rename_i entry hsplit
    split at hsplit
    · rename_i hin
      cases hsplit
      rw [if_pos hin]
      change _ :: enclosing _ pc = _
      rw [enclosing_append, enclosing_cons_of_not (by simp)]
      simp
    · cases hsplit

/-- Every loop of a shape ends within it. -/
theorem enclosing_place_of_ge (hfits : s.Fits) (h : base + s.size ≤ pc) :
    enclosing (place base s.instructions) pc = [] := by
  induction s generalizing base with
  | nil => rfl
  | plain i hi rest ih =>
    simp only [size, ← Nat.add_assoc] at h
    have hrest := ih hfits h
    rw [instructions, place, enclosing_cons_of_not, hrest]
    rintro r skip rfl
    exact hi
  | conditional test body rest ihbody ihrest =>
    simp only [size] at h
    rw [enclosing_conditional, ihbody hfits.2.1 (by omega), ihrest hfits.2.2 (by omega)]
    rfl
  | choice test body other rest ihbody ihother ihrest =>
    simp only [size] at h
    rw [enclosing_choice, ihbody hfits.2.2.1 (by omega), ihother hfits.2.2.2.1 (by omega),
      ihrest hfits.2.2.2.2 (by omega)]
    rfl
  | loop test body rest ihbody ihrest =>
    simp only [size] at h
    rw [enclosing_loop hfits.1, ihbody hfits.2.1 (by omega), ihrest hfits.2.2 (by omega),
      if_neg (by omega)]
    rfl

theorem At.bounds (h : s.At base pc i starts) : base ≤ pc ∧ pc < base + s.size := by
  induction h with
  | plain =>
    rename_i i hi rest base
    have hwidth := i.width_pos
    simp only [size]
    omega
  | _ =>
    simp only [size]
    omega

/-- **The loops entered at a place are those around it.** -/
theorem At.enclosing_eq (h : s.At base pc i starts) (hfits : s.Fits) :
    (enclosing (place base s.instructions) pc).map (·.start) = starts.reverse := by
  induction h with
  | plain | ifHead | choiceHead | loopHead => rw [enclosing_place_of_le (Nat.le_refl _)]; rfl
  | plainRest hat ih =>
    rename_i i j hi rest base pc starts
    rw [instructions, place, enclosing_cons_of_not, ih hfits]
    rintro r skip rfl
    exact hi
  | ifBody hat ih =>
    have hbounds := hat.bounds
    rw [enclosing_conditional, map_append, ih hfits.2.1, enclosing_place_of_le (by omega)]
    simp
  | ifEnd =>
    rw [enclosing_conditional, enclosing_place_of_ge hfits.2.1 (by omega),
      enclosing_place_of_le (by omega)]
    rfl
  | ifRest hat ih =>
    have hbounds := hat.bounds
    rw [enclosing_conditional, enclosing_place_of_ge hfits.2.1 (by omega), nil_append,
      ih hfits.2.2]
  | choiceBody hat ih =>
    have hbounds := hat.bounds
    rw [enclosing_choice, map_append, ih hfits.2.2.1, enclosing_place_of_le (by omega),
      enclosing_place_of_le (by omega)]
    simp
  | choiceMiddle =>
    rw [enclosing_choice, enclosing_place_of_ge hfits.2.2.1 (by omega),
      enclosing_place_of_le (by omega), enclosing_place_of_le (by omega)]
    rfl
  | choiceOther hat ih =>
    have hbounds := hat.bounds
    rw [enclosing_choice, enclosing_place_of_ge hfits.2.2.1 (by omega), nil_append,
      map_append, ih hfits.2.2.2.1, enclosing_place_of_le (by omega)]
    simp
  | choiceEnd =>
    rw [enclosing_choice, enclosing_place_of_ge hfits.2.2.1 (by omega),
      enclosing_place_of_ge hfits.2.2.2.1 (by omega), enclosing_place_of_le (by omega)]
    rfl
  | choiceRest hat ih =>
    have hbounds := hat.bounds
    rw [enclosing_choice, enclosing_place_of_ge hfits.2.2.1 (by omega),
      enclosing_place_of_ge hfits.2.2.2.1 (by omega), nil_append, nil_append,
      ih hfits.2.2.2.2]
  | loopBody hat ih =>
    -- the loop itself comes first, since it is the outermost one
    have hbounds := hat.bounds
    rw [enclosing_loop hfits.1, if_pos (by omega), map_append, map_append, ih hfits.2.1,
      enclosing_place_of_le (by omega)]
    simp
  | loopEnd =>
    rw [enclosing_loop hfits.1, if_pos (by omega), enclosing_place_of_ge hfits.2.1 (by omega),
      enclosing_place_of_le (by omega)]
    rfl
  | loopRest hat ih =>
    have hbounds := hat.bounds
    rw [enclosing_loop hfits.1, if_neg (by omega), enclosing_place_of_ge hfits.2.1 (by omega),
      nil_append, nil_append, ih hfits.2.2]

theorem Reaches.enclosing_eq (h : s.Reaches base pc starts) (hfits : s.Fits) :
    (enclosing (place base s.instructions) pc).map (·.start) = starts.reverse := by
  rcases h with ⟨i, hat⟩ | ⟨rfl, rfl⟩
  · exact hat.enclosing_eq hfits
  · rw [enclosing_place_of_ge hfits (Nat.le_refl _)]
    rfl

/-- Offsets of a shape lie between its ends. -/
theorem Reaches.bounds (h : s.Reaches base pc starts) : base ≤ pc ∧ pc ≤ base + s.size := by
  rcases h with ⟨i, hat⟩ | ⟨rfl, -⟩
  · have hbounds := hat.bounds
    omega
  · omega

/-- The innermost loop around an end mark ends just behind it. -/
theorem At.exists_loop_of_endWhile (h : s.At base pc i starts) (hend : i = .endWhile)
    (hfits : s.Fits) :
    ∃ start outer test skip, starts = start :: outer ∧
      ⟨start, .whileLoop test skip⟩ ∈ place base s.instructions ∧
      start + 3 + skip.toNat = pc + 1 := by
  induction h with
  | plain =>
    rename_i hi _ _
    subst hend
    cases hi
  | ifHead | ifEnd | choiceHead | choiceMiddle | choiceEnd | loopHead => cases hend
  | loopEnd =>
    refine ⟨_, [], _, _, rfl, At.loopHead.mem_place, ?_⟩
    rw [toNat_ofNat_of_le hfits.1]
    omega
  | plainRest hat ih | ifBody hat ih | ifRest hat ih | choiceBody hat ih | choiceOther hat ih
  | choiceRest hat ih | loopBody hat ih | loopRest hat ih =>
    obtain ⟨start, outer, test, skip, rfl, hmem, hstop⟩ := ih hend (by simp_all only [Fits])
    exact ⟨start, _, test, skip, rfl, by simp [instructions, place, place_append, hmem], hstop⟩

end Shape

/-! ## Entered loops -/

/-- The entry is of a loop of the code. -/
def LoopEntry.IsLoop (code : Code) (entry : LoopEntry) : Prop :=
  ∃ skip, Instruction.decode code entry.start = .ok (.whileLoop entry.register skip)

theorem eq_of_map_start_eq {code : Code} {xs ys : List LoopEntry}
    (hxs : ∀ entry ∈ xs, entry.IsLoop code) (hys : ∀ entry ∈ ys, entry.IsLoop code)
    (h : xs.map (·.start) = ys.map (·.start)) : xs = ys := by
  induction xs generalizing ys with
  | nil => exact (map_eq_nil_iff.1 h.symm).symm
  | cons x xs ih =>
    cases ys with
    | nil => cases h
    | cons y ys =>
      obtain ⟨hstart, hrest⟩ := List.cons.inj h
      obtain ⟨skip, hx⟩ := hxs x mem_cons_self
      obtain ⟨skip', hy⟩ := hys y mem_cons_self
      have hstart : x.start = y.start := hstart
      rw [hstart, hy] at hx
      simp only [Except.ok.injEq, Instruction.whileLoop.injEq] at hx
      have hentry : x = y := by
        cases x
        cases y
        simp_all
      rw [hentry, ih (fun e he => hxs e (mem_cons_of_mem _ he))
        (fun e he => hys e (mem_cons_of_mem _ he)) hrest]

namespace Machine

/-- The loops entered since the current call, innermost first. -/
def ownLoops (m : Machine) : List LoopEntry :=
  match m.calls with
  | [] => m.loops
  | frame :: _ => m.loops.take (m.loops.length - frame.loopDepth)

/-- Only the start of a loop enters one. -/
theorem mem_loops_execute {codeLength : Nat} (h : entry ∈ (m.execute codeLength i).loops) :
    entry ∈ m.loops ∨ ∃ skip, i = .whileLoop entry.register skip ∧ entry.start = m.pc := by
  cases i with
  | whileLoop register skip =>
    simp only [execute] at h
    split at h
    · exact .inl h
    · rcases mem_cons.1 h with rfl | h
      · exact .inr ⟨skip, rfl, rfl⟩
      · exact .inl h
  | endWhile =>
    cases hloops : m.loops with
    | nil =>
      rw [execute_endWhile_of_nil codeLength hloops] at h
      exact .inl (hloops ▸ h)
    | cons top loops =>
      rw [execute_endWhile_of_cons codeLength hloops] at h
      exact .inl (mem_cons_of_mem _ h)
  | ret =>
    cases hcalls : m.calls with
    | nil =>
      rw [execute_ret_of_nil codeLength hcalls] at h
      exact .inl h
    | cons frame calls =>
      rw [execute_ret_of_cons codeLength hcalls] at h
      exact .inl (mem_of_mem_drop h)
  | ifZero register skip =>
    simp only [execute] at h
    split at h <;> exact .inl h
  | _ => exact .inl h

end Machine

/-- The loops around the offsets at which calls go on, innermost first. -/
def loopsAround (decoded : List Decoded) (frames : List Frame) : List LoopEntry :=
  frames.flatMap fun frame => (enclosing decoded frame.returnTo).reverse

/-- The stacks of a machine are what the listing says of the offset and of the callers. -/
structure LoopDiscipline (decoded : List Decoded) (code : Code) (m : Machine) : Prop where
  /-- Since the current call, the loops around the offset were entered, and no others. -/
  own : m.ownLoops = (enclosing decoded m.pc).reverse
  /-- A call leaves its callers in the loops around the offsets where they go on. -/
  callers : ∀ front frame back, m.calls = front ++ frame :: back →
    frame.loopDepth = (loopsAround decoded (frame :: back)).length ∧
      m.loops.drop (m.loops.length - frame.loopDepth) = loopsAround decoded (frame :: back)
  /-- An end mark pops a loop of the current call: the one that goes just behind the mark. -/
  endMark : Instruction.decode code m.pc = .ok .endWhile → ∃ entry skip,
    (∀ codeLength, m.loops = entry :: (m.execute codeLength .endWhile).loops) ∧
      entry ∈ m.ownLoops ∧ ⟨entry.start, .whileLoop entry.register skip⟩ ∈ decoded ∧
      entry.start + 3 + skip.toNat = m.pc + 1
  /-- The code stops with empty stacks. -/
  stop : Instruction.decode code m.pc = .ok .halt → ∀ codeLength,
    (m.execute codeLength .halt).loops = [] ∧ (m.execute codeLength .halt).calls = []

namespace Linked

variable {s : Shape} {who : Option Function} {whos rest : List (Option Function)} {frame : Frame}
variable {front back frames : List Frame}

variable (l) in
/-- The listing of the code. -/
def listing : List Decoded := place 0 l.shape.instructions

theorem disassemble_code : disassemble image.code = .ok l.listing :=
  disassemble_eq_ok_iff.2 ⟨_, l.valid_instructions, l.code_eq, rfl⟩

theorem decode_of_mem_listing (h : d ∈ l.listing) :
    Instruction.decode image.code d.offset = .ok d.instruction := by
  have hcode : image.code = encodeAll l.shape.instructions := l.code_eq
  rw [hcode]
  exact decode_of_mem_place l.valid_instructions h

/-- The loops around a place of a body are loops of the body. -/
theorem Owner.enclosing_eq (h : l.Owner who base s) (hreaches : s.Reaches base pc starts) :
    (enclosing l.listing pc).map (·.start) = starts.reverse := by
  obtain ⟨before, stop, hstop, after, hshape, hsize, -⟩ := h.shape_eq
  have hfits := l.fits_shape
  rw [hshape, Shape.fits_append] at hfits
  have hbounds := hreaches.bounds
  have hbefore : enclosing (place 0 before.instructions) pc = [] :=
    Shape.enclosing_place_of_ge hfits.1 (by omega)
  have hafter : enclosing (⟨base + s.size, stop⟩ ::
      place (base + s.size + stop.width) after.instructions) pc = [] := by
    rw [enclosing_cons_of_not, enclosing_place_of_le (by omega)]
    rintro r skip rfl
    exact hstop
  rw [listing, place_shape hshape hsize, enclosing_append, enclosing_append, hbefore, hafter,
    nil_append, List.append_nil]
  exact hreaches.enclosing_eq h.fits

theorem Chain.starts_eq (h : l.Chain frames starts whos) :
    starts = (loopsAround l.listing frames).map (·.start) := by
  induction h with
  | nil => rfl
  | cons howner _ hreaches hloops _ _ ih =>
    have hown := howner.enclosing_eq hreaches
    rw [hloops, loopsAround, flatMap_cons, map_append, map_reverse, hown,
      reverse_reverse, ih]
    rfl

theorem Chain.loopDepth_eq (h : l.Chain frames starts whos)
    (hframes : frames = front ++ frame :: back) :
    frame.loopDepth = (loopsAround l.listing (frame :: back)).length := by
  induction h generalizing front with
  | nil => simp at hframes
  | cons howner htop hreaches hloops hdepth hchain ih =>
    cases front with
    | nil =>
      obtain ⟨rfl, rfl⟩ := List.cons.inj hframes
      have hstarts := (Chain.cons howner htop hreaches hloops hdepth hchain).starts_eq
      rw [hdepth, hstarts, length_map]
    | cons _ front => exact ih (List.cons.inj hframes).2

variable (l) in
/-- The machine is placed, and it entered loops of the code only. -/
def Inside (m : Machine) (whos : List (Option Function)) : Prop :=
  l.Placed m whos ∧ ∀ entry ∈ m.loops, entry.IsLoop image.code

theorem isLoop_of_mem_loopsAround :
    ∀ entry ∈ loopsAround l.listing frames, entry.IsLoop image.code := by
  intro entry hentry
  obtain ⟨frame, -, hmem⟩ := mem_flatMap.1 hentry
  obtain ⟨d, hd, haround⟩ := mem_filterMap.1 (mem_reverse.1 hmem)
  obtain ⟨skip, rfl, -, -⟩ := around?_eq_some haround
  exact ⟨skip, decode_of_mem_listing hd⟩

/-- **The stack of loops is a function of the offset and the calls.** -/
theorem Inside.loops_eq (h : l.Inside m whos) :
    m.loops = loopsAround l.listing (⟨m.pc, m.loops.length⟩ :: m.calls) :=
  eq_of_map_start_eq h.2 isLoop_of_mem_loopsAround h.1.starts_eq

theorem Inside.loopDepth_eq (h : l.Inside m whos) (hcalls : m.calls = front ++ frame :: back) :
    frame.loopDepth = (loopsAround l.listing (frame :: back)).length := by
  have hframes : (⟨m.pc, m.loops.length⟩ : Frame) :: m.calls =
      (⟨m.pc, m.loops.length⟩ :: front) ++ frame :: back := by
    rw [hcalls, cons_append]
  exact h.1.loopDepth_eq hframes

theorem Inside.drop_eq (h : l.Inside m whos) (hcalls : m.calls = front ++ frame :: back) :
    m.loops.drop (m.loops.length - frame.loopDepth) = loopsAround l.listing (frame :: back) := by
  have hloops := h.loops_eq
  rw [hcalls, loopsAround, ← cons_append, flatMap_append] at hloops
  have hlength := congrArg List.length hloops
  rw [length_append] at hlength
  have hdepth := h.loopDepth_eq hcalls
  rw [loopsAround] at hdepth
  rw [hdepth, hloops, length_append, Nat.add_sub_cancel, drop_left]
  rfl

theorem Inside.ownLoops_eq (h : l.Inside m whos) :
    m.ownLoops = (enclosing l.listing m.pc).reverse := by
  have hloops := h.loops_eq
  rw [loopsAround, flatMap_cons] at hloops
  unfold Machine.ownLoops
  split
  · rename_i hcalls
    rw [hcalls] at hloops
    simpa using hloops
  · rename_i frame back hcalls
    have hframes : m.calls = [] ++ frame :: back := hcalls
    have hdepth := h.loopDepth_eq hframes
    rw [loopsAround, ← hcalls] at hdepth
    rw [hdepth, hloops, length_append, Nat.add_sub_cancel, take_left]

/-! ## One step -/

theorem inside_initial (status : Status) : l.Inside (.initial status) [none] :=
  ⟨placed_initial status, nofun⟩

/-- **One instruction** leaves the machine halted or inside the code. -/
theorem Inside.execute (h : l.Inside m (who :: rest))
    (hdecode : Instruction.decode image.code m.pc = .ok i) (codeLength : Nat) :
    (m.execute codeLength i).status = .halted ∨
      ∃ who rest, l.Inside (m.execute codeLength i) (who :: rest) := by
  refine (h.1.execute hdecode codeLength).imp_right ?_
  rintro ⟨whos, -, hplaced⟩
  obtain ⟨who, rest, rfl⟩ := hplaced.exists_cons
  refine ⟨who, rest, hplaced, fun entry hentry => ?_⟩
  rcases Machine.mem_loops_execute hentry with hentry | ⟨skip, rfl, hstart⟩
  · exact h.2 entry hentry
  · exact ⟨skip, by rw [hstart, hdecode]⟩

/-- An end mark is inside the loop that it ends. -/
theorem Inside.endMark (h : l.Inside m (who :: rest))
    (hdecode : Instruction.decode image.code m.pc = .ok .endWhile) :
    ∃ entry skip, (∀ codeLength, m.loops = entry :: (m.execute codeLength .endWhile).loops) ∧
      entry ∈ m.ownLoops ∧ ⟨entry.start, .whileLoop entry.register skip⟩ ∈ l.listing ∧
      entry.start + 3 + skip.toNat = m.pc + 1 := by
  obtain ⟨base, s, starts, outer, howner, -, hloops, -, hat | ⟨-, ⟨⟨⟩, -⟩ | ⟨⟨⟩⟩⟩⟩ :=
    h.1.exists_owner hdecode
  obtain ⟨start, inner, test, skip, hstarts, hmem, hstop⟩ :=
    hat.exists_loop_of_endWhile rfl howner.fits
  obtain ⟨before, stop, hplain, after, hshape, hsize, -⟩ := howner.shape_eq
  have hlisted : ⟨start, .whileLoop test skip⟩ ∈ l.listing := by
    rw [listing, place_shape hshape hsize]
    exact mem_append_right _ (mem_append_left _ hmem)
  -- the loops around the mark begin with this one, and their entries are those of the stack
  have hown := h.ownLoops_eq
  have henclosing := howner.enclosing_eq (.inl ⟨_, hat⟩)
  have hownStarts : m.ownLoops.map (·.start) = start :: inner := by
    rw [hown, map_reverse, henclosing, reverse_reverse, hstarts]
  cases hentries : m.loops with
  | nil =>
    rw [Machine.loopStarts, hentries, hstarts] at hloops
    cases hloops
  | cons entry loops =>
    rw [Machine.loopStarts, hentries, hstarts] at hloops
    have hstart : entry.start = start := (List.cons.inj hloops).1
    obtain ⟨skip', hread⟩ := h.2 entry (by rw [hentries]; exact mem_cons_self)
    rw [hstart, decode_of_mem_listing hlisted] at hread
    cases hread
    refine ⟨entry, skip, fun codeLength => ?_, ?_, hstart ▸ hlisted, hstart ▸ hstop⟩
    · rw [Machine.execute_endWhile_of_cons codeLength hentries]
    · -- the entry on top is one of the current call's, since that has some
      have hsuffix : ∃ below, m.loops = m.ownLoops ++ below := by
        unfold Machine.ownLoops
        split
        · exact ⟨[], by simp⟩
        · exact ⟨_, (take_append_drop _ _).symm⟩
      obtain ⟨below, hbelow⟩ := hsuffix
      cases howned : m.ownLoops with
      | nil =>
        rw [howned] at hownStarts
        cases hownStarts
      | cons first rest =>
        rw [hentries, howned] at hbelow
        rw [(List.cons.inj hbelow).1]
        exact mem_cons_self

/-- The code stops behind the top-level code, outside all loops and calls. -/
theorem Placed.stop (h : l.Placed m (who :: rest))
    (hdecode : Instruction.decode image.code m.pc = .ok .halt) : m.loops = [] ∧ m.calls = [] := by
  obtain ⟨base, s, starts, outer, howner, htop, hloops, hchain, hat | ⟨rfl, ⟨-, rfl⟩ | ⟨⟨⟩⟩⟩⟩ :=
    h.exists_owner hdecode
  · exact ((hat.of_all trivial howner.all).1.2 rfl).elim
  · obtain rfl : rest = [] := htop
    generalize hcalls : m.calls = calls at hchain
    cases hchain
    exact ⟨map_eq_nil_iff.1 hloops, rfl⟩

theorem Inside.discipline (h : l.Inside m (who :: rest)) :
    LoopDiscipline l.listing image.code m where
  own := h.ownLoops_eq
  callers _ _ _ hcalls := ⟨h.loopDepth_eq hcalls, h.drop_eq hcalls⟩
  endMark := h.endMark
  stop hdecode _ := h.1.stop hdecode

end Linked

/-! ## Every session -/

/-- The sessions that steps lead to from the start, failed steps included. -/
inductive Session.Reachable (config : RunConfig) (code : Code) : Session → Prop where
  | start : Reachable config code .start
  | step {s : Session} : Reachable config code s → s.isActive code = true →
      Reachable config code (s.step config code).1

/-- A run that is cut off goes through reachable sessions. -/
theorem Session.Reachable.runFor {code : Code} {s s' : Session} {fuel : Nat}
    (h : Reachable config code s) (hrun : Session.runFor config code fuel s = (s', .unfinished)) :
    Reachable config code s' := by
  have hstep (t u : Session) (ht : Reachable config code t) (hactive : t.isActive code = true)
      (heq : t.step config code = (u, .ok ())) : Reachable config code u := by
    have hnext := ht.step hactive
    rwa [heq] at hnext
  obtain ⟨last, hlast, heq | heq | ⟨_, _, -, -, heq⟩⟩ := runFor_ends hstep fuel h
  · cases heq.symm.trans hrun
    exact hlast
  · cases heq.symm.trans hrun
  · cases heq.symm.trans hrun

/-- Every reachable session is halted or inside the code. -/
theorem Linked.inside_of_reachable {s : Session} (h : Session.Reachable config image.code s) :
    s.machine.status = .halted ∨ ∃ who rest, l.Inside s.machine (who :: rest) := by
  induction h with
  | start => exact .inr ⟨none, [], inside_initial .running⟩
  | @step s _ hactive ih =>
    rcases ih with hhalted | ⟨who, rest, hinside⟩
    · rw [(Session.isActive_iff.1 hactive).1] at hhalted
      cases hhalted
    · rcases hstep : s.step config image.code with ⟨next, fault | ok⟩
      · -- a failed step does not move the machine, or moves it behind a call
        rcases Session.step_eq_error hstep with
          ⟨-, -, -, hsame⟩ | ⟨-, -, -, hsame⟩ | ⟨addr, hdecode, -, -, hcall⟩
        · exact .inr ⟨who, rest, hsame ▸ hinside⟩
        · exact .inr ⟨who, rest, hsame ▸ hinside⟩
        · exact .inr ⟨who, rest, hcall ▸ ⟨hinside.1.advance_call hdecode, hinside.2⟩⟩
      · obtain ⟨-, i, hdecode, -, rfl⟩ := Session.step_eq_ok_iff.1 hstep
        exact hinside.execute hdecode image.code.length

/-- **A running machine is inside bodies**, in the loops around its places. -/
theorem Linked.inside_of_running (l : Linked image) {s : Session}
    (h : Session.Reachable config image.code s) (hrunning : s.machine.status = .running) :
    ∃ who rest, l.Inside s.machine (who :: rest) :=
  (l.inside_of_reachable h).resolve_left (by simp [hrunning])

/-- **Loops are entered and left as the code is nested.** In every reachable session that goes on,
the stacks are what the listing says. -/
theorem assemble_loop_discipline {code : List Linear.Instr} {image : Image}
    (h : assemble code = .ok image) :
    ∃ decoded, disassemble image.code = .ok decoded ∧
      ∀ config s, Session.Reachable config image.code s → s.machine.status = .running →
        LoopDiscipline decoded image.code s.machine := by
  obtain ⟨l⟩ := exists_linked h
  refine ⟨l.listing, l.disassemble_code, fun config s hreachable hrunning => ?_⟩
  obtain ⟨who, rest, hinside⟩ := l.inside_of_running hreachable hrunning
  exact hinside.discipline

/-- After 24 steps `countdown` is in its function, called from its loop at offset 3. -/
theorem assemble_loop_discipline_countdown : ∃ image, assemble countdown = .ok image ∧
    ∃ decoded s, disassemble image.code = .ok decoded ∧
      Session.Reachable .default image.code s ∧ s.machine.status = .running ∧
      s.machine.calls = [⟨29, 1⟩] ∧ s.machine.loops = [⟨3, 3⟩] ∧
      LoopDiscipline decoded image.code s.machine := by
  obtain ⟨image, h, hcode⟩ := map_eq_ok.1 code_countdown
  have hsession : (Session.runFor .default image.code 24 .start).2 = .unfinished ∧
      (Session.runFor .default image.code 24 .start).1.machine.status = .running ∧
      (Session.runFor .default image.code 24 .start).1.machine.calls = [⟨29, 1⟩] ∧
      (Session.runFor .default image.code 24 .start).1.machine.loops = [⟨3, 3⟩] := by
    rw [hcode]
    decide +kernel
  obtain ⟨hending, hrunning, hcalls, hloops⟩ := hsession
  have hreachable := Session.Reachable.start.runFor (Prod.ext rfl hending)
  obtain ⟨decoded, hdecoded, hdiscipline⟩ := assemble_loop_discipline h
  exact ⟨image, h, decoded, _, hdecoded, hreachable, hrunning, hcalls, hloops,
    hdiscipline _ _ hreachable hrunning⟩

end ImpMachine
