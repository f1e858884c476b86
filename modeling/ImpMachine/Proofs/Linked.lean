import ImpMachine.Proofs.Placement

/-!
# Assembled code is structured

The code of an image is one shape: the top-level code and a stop, then for every function its body
and a return (`Linked`). A call goes to the first instruction of a function that the calling code
mentions. So the static check accepts assembled code, and every skip in it is exact
(`assemble_structured`).
-/

namespace ImpMachine

open Assembly List

variable {rs : List (Function × Shape)} {code : List Linear.Instr} {image : Image} {addr : UInt8}

/-! ## Functions one behind the other -/

/-- The code of functions: the body of each, and a return. -/
def routinesShape : List (Function × Shape) → Shape
  | [] => .nil
  | (_, s) :: rest => (s.append retShape).append (routinesShape rest)

/-- The addresses of functions whose code stands at an offset. -/
def addressesFrom : Nat → List (Function × Shape) → List (String × Nat)
  | _, [] => []
  | offset, (f, s) :: rest => (f.name, offset) :: addressesFrom (offset + (s.size + 1)) rest

theorem routinesShape_append (front back : List (Function × Shape)) :
    routinesShape (front ++ back) = (routinesShape front).append (routinesShape back) := by
  induction front with
  | nil => rfl
  | cons r front ih =>
    obtain ⟨f, s⟩ := r
    rw [cons_append, routinesShape, routinesShape, ih, ← Shape.append_assoc]

theorem addressesFrom_eq_zip (offset : Nat) (rs : List (Function × Shape)) :
    addressesFrom offset rs =
      (rs.map (·.1.name)).zip (offsetsFrom offset (rs.map (·.2.size + 1))) := by
  induction rs generalizing offset with
  | nil => rfl
  | cons r rs ih =>
    obtain ⟨f, s⟩ := r
    rw [addressesFrom, ih]
    rfl

/-- A function is found at the end of the code of those before it. -/
theorem lookup_addressesFrom {offset : Nat} {name : String} {address : Nat}
    (h : (addressesFrom offset rs).lookup name = some address) :
    ∃ front f s back, rs = front ++ (f, s) :: back ∧ f.name = name ∧
      (∀ r ∈ front, r.1.name ≠ name) ∧ address = offset + (routinesShape front).size := by
  induction rs generalizing offset with
  | nil => cases h
  | cons r rs ih =>
    obtain ⟨f, s⟩ := r
    rw [addressesFrom, lookup_cons] at h
    split at h
    · rename_i hname
      cases h
      exact ⟨[], f, s, rs, rfl, (beq_iff_eq.1 hname).symm, by simp, rfl⟩
    · rename_i hname
      obtain ⟨front, g, t, back, rfl, hg, hfront, rfl⟩ := ih h
      refine ⟨(f, s) :: front, g, t, back, rfl, hg, ?_, ?_⟩
      · refine forall_mem_cons.2 ⟨fun heq => ?_, hfront⟩
        simp [← heq] at hname
      · have hret : retShape.size = 1 := rfl
        simp only [routinesShape, Shape.size_append, hret]
        omega

/-! ## Linked code -/

/-- The code of an image in shapes. -/
structure Linked (image : Image) where
  /-- The top-level code, before the stop. -/
  main : Shape
  /-- The functions with their bodies. -/
  routines : List (Function × Shape)
  table : FunctionTable
  /-- The functions that the top-level code mentions. -/
  mainCalls : List String
  acyclic : checkRecursion (routines.map Prod.fst) = .ok ()
  addresses_eq : table.addresses = addressesFrom (main.size + 1) routines
  addresses_le : ∀ label ∈ table.addresses, label.2 ≤ maxAddress
  main_all : main.All (Lawful table mainCalls)
  routines_all : ∀ r ∈ routines, r.2.All (Lawful table r.1.callees)
  fits : main.Fits ∧ (routinesShape routines).Fits
  code_eq : image.code =
    encodeAll (main.append (.plain .halt trivial (routinesShape routines))).instructions

/-- The drafts of functions have the shapes of functions. -/
theorem exists_routines {table : FunctionTable} {rs : List Routine} {b b' : Bindings}
    {ds : List Draft} (h : draftAll table rs b = .ok (ds, b'))
    (hwaits : ¬Waits table (Draft.join ds).leaves) :
    ∃ linked : List (Function × Shape), linked.map Prod.fst = rs.map Routine.function ∧
      (Draft.join ds).HasShape (routinesShape linked) ∧
      ds.map Draft.size = linked.map (·.2.size + 1) ∧
      (∀ r ∈ linked, r.2.All (Lawful table r.1.callees)) ∧
      List.Forall₂ (fun d r => d.HasShape (r.2.append retShape)) ds linked := by
  induction rs generalizing b ds with
  | nil =>
    cases h
    exact ⟨[], rfl, .nil, rfl, by simp, .nil⟩
  | cons r rs ih =>
    obtain ⟨d, b₁, hd, h⟩ := run_bind_eq_ok.1 h
    obtain ⟨ds, b₂, hds, h⟩ := run_bind_eq_ok.1 h
    cases h
    rw [Draft.join, Draft.leaves_append, waits_append, not_or] at hwaits
    obtain ⟨linked, hfst, hshape, hsizes, hall, hshapes⟩ := ih hds hwaits.2
    rcases formed_routine r (fun c hc => hc) _ _ _ hd with ⟨s, hs, hsall⟩ | hw
    · refine ⟨(r.function, s) :: linked, ?_, hs.append hshape, ?_, ?_, .cons hs hshapes⟩
      · rw [map_cons, map_cons, hfst]
      · rw [map_cons, map_cons, hsizes, hs.size_eq, Shape.size_append]
        rfl
      · exact forall_mem_cons.2 ⟨hsall, hall⟩
    · exact (hwaits.1 hw).elim

/-- **Assembled code is linked**, from the drafts of its functions in order. -/
theorem Assembled.exists_linked (a : Assembled code image) :
    ∃ l : Linked image, l.table = a.table ∧
      l.routines.map Prod.fst = a.tree.routines.map Routine.function ∧
      a.main.HasShape (l.main.append (.plain .halt trivial .nil)) ∧
      List.Forall₂ (fun d r => d.HasShape (r.2.append retShape)) a.drafts l.routines := by
  obtain ⟨hfunctions, hmain⟩ := a.not_waits
  obtain ⟨linked, hfst, hshape, hsizes, hall, hshapes⟩ := exists_routines a.drafts_eq hfunctions
  obtain ⟨d, hd, hdmain⟩ := mainDraft_eq_ok a.main_eq
  rw [hdmain, Draft.leaves_append] at hmain
  rcases formed_draft a.tree.body (fun c hc => hc) _ _ _ hd with ⟨s, hs, hsall⟩ | hw
  · have hstop : a.main.HasShape (s.append (.plain .halt trivial .nil)) := by
      rw [hdmain]
      exact hs.append_halt
    obtain ⟨hsfits, hlfits, hcode⟩ := a.code_eq _ _ hstop hshape
    have hnames : linked.map (·.1.name) = a.tree.routines.map Routine.name := by
      have hnames := congrArg (List.map Function.name) hfst
      rwa [map_map, map_map] at hnames
    have hsize : a.main.size = s.size + 1 := by
      rw [hstop.size_eq, Shape.size_append]
      rfl
    exact ⟨{
      main := s
      routines := linked
      table := a.table
      mainCalls := a.tree.body.flatten.flatMap instrCalls
      acyclic := hfst ▸ a.acyclic
      addresses_eq := by
        rw [a.addresses_eq, addressesFrom_eq_zip, hnames, hsizes, hsize]
      addresses_le := a.addresses_le
      main_all := hsall
      routines_all := hall
      fits := ⟨(Shape.fits_append.1 hsfits).1, hlfits⟩
      code_eq := by
        rw [hcode, ← Shape.instructions_append, Shape.append_assoc]
        rfl }, rfl, hfst, hstop, hshapes⟩
  · exact (hmain (waits_append.2 (.inl hw))).elim

/-- **Assembled code is linked**: its shape, and its functions in it. -/
theorem exists_linked (h : assemble code = .ok image) : Nonempty (Linked image) := by
  obtain ⟨a⟩ := exists_assembled h
  obtain ⟨l, -⟩ := a.exists_linked
  exact ⟨l⟩

namespace Linked

variable (l : Linked image) {P : Instruction → Prop}

/-- The shape of the whole code. -/
def shape : Shape := l.main.append (.plain .halt trivial (routinesShape l.routines))

theorem all_routinesShape (hret : P .ret) (h : ∀ r ∈ rs, r.2.All P) : (routinesShape rs).All P := by
  induction rs with
  | nil => trivial
  | cons r rs ih =>
    obtain ⟨hr, hrs⟩ := forall_mem_cons.1 h
    exact Shape.all_append.2 ⟨Shape.all_append.2 ⟨hr, hret, trivial⟩, ih hrs⟩

theorem all_shape (hlawful : ∀ calls i, Lawful l.table calls i → P i) (hhalt : P .halt)
    (hret : P .ret) : l.shape.All P :=
  Shape.all_append.2 ⟨l.main_all.mono (hlawful _), hhalt,
    all_routinesShape hret fun r hr => (l.routines_all r hr).mono (hlawful _)⟩

theorem fits_shape : l.shape.Fits := Shape.fits_append.2 l.fits

theorem valid_instructions : ∀ i ∈ l.shape.instructions, i.Valid :=
  Shape.forall_mem_instructions (l.all_shape (fun _ _ h => h.1.1) trivial trivial)
    (fun r _ => r.byte_lt) (fun _ => trivial) (fun r _ => r.byte_lt) trivial trivial

/-- The whole code around the body of one function. -/
theorem shape_eq {front back : List (Function × Shape)} {f : Function} {s : Shape}
    (h : l.routines = front ++ (f, s) :: back) :
    l.shape = (l.main.append (.plain .halt trivial (routinesShape front))).append
      ((s.append retShape).append (routinesShape back)) := by
  rw [shape, h, routinesShape_append, Shape.append_assoc]
  rfl

/-- A call goes to the address of a function. -/
theorem exists_routine_of_call (h : .call addr ∈ l.shape.instructions) :
    ∃ front f s back, l.routines = front ++ (f, s) :: back ∧
      addr.toNat = l.main.size + 1 + (routinesShape front).size := by
  have hall : ∀ i ∈ l.shape.instructions, ∀ addr, i = .call addr →
      ∃ callee, l.table.addresses.lookup callee = some addr.toNat := by
    refine Shape.forall_mem_instructions (l.all_shape (fun calls i hi addr heq => ?_) ?_ ?_)
      ?_ ?_ ?_ ?_ ?_
    · obtain ⟨callee, -, hlookup⟩ := hi.2 addr heq
      exact ⟨callee, hlookup⟩
    all_goals simp
  obtain ⟨callee, hlookup⟩ := hall _ h addr rfl
  rw [l.addresses_eq] at hlookup
  obtain ⟨front, f, s, back, hroutines, -, -, haddr⟩ := lookup_addressesFrom hlookup
  exact ⟨front, f, s, back, hroutines, haddr⟩

/-- Calls go to instructions. -/
theorem mem_place_of_call (h : .call addr ∈ l.shape.instructions) :
    addr.toNat ∈ (place 0 l.shape.instructions).map (·.offset) := by
  obtain ⟨front, f, s, back, hroutines, haddr⟩ := l.exists_routine_of_call h
  have hsplit : l.shape.instructions =
      (l.main.append (.plain .halt trivial (routinesShape front))).instructions ++
        ((s.append retShape).instructions ++ (routinesShape back).instructions) := by
    rw [l.shape_eq hroutines, Shape.instructions_append, Shape.instructions_append (s.append _)]
  -- the function's code is not empty: it ends in a return
  obtain ⟨i, is, hi⟩ : ∃ i is, (s.append retShape).instructions = i :: is := by
    rw [Shape.instructions_append]
    exact exists_cons_of_ne_nil (by simp [retShape, Shape.instructions])
  have hmem : ⟨addr.toNat, i⟩ ∈ place 0 l.shape.instructions := by
    rw [hi, cons_append] at hsplit
    refine mem_place_iff.2 ⟨_, _, hsplit, ?_⟩
    have hhalt : Instruction.halt.width = 1 := rfl
    simp only [haddr, Shape.length_encodeAll_instructions, Shape.size_append, Shape.size, hhalt]
    omega
  exact mem_map.2 ⟨_, hmem, rfl⟩

end Linked

/-- **Assembled code has exact structured skips and passes the static check.** -/
theorem assemble_structured {code : List Linear.Instr} {image : Image}
    (h : assemble code = .ok image) :
    ∃ decoded, disassemble image.code = .ok decoded ∧ verify image.code = .ok () ∧
      Structured decoded := by
  obtain ⟨l⟩ := exists_linked h
  have hcode : image.code = encodeAll l.shape.instructions := l.code_eq
  have hstructured := Shape.structured_place l.fits_shape 0
  rw [hcode]
  exact ⟨place 0 l.shape.instructions,
    disassemble_eq_ok_iff.2 ⟨_, l.valid_instructions, rfl, rfl⟩,
    verify_of_structured l.valid_instructions hstructured fun _ hcall => l.mem_place_of_call hcall,
    hstructured⟩

/-- A loop around a choice, with a call and with inline conditionals in both functions. -/
def countdown : List Linear.Instr :=
  [.declare "n" (.int 3), .whileBegin (.var "n"), .ifBegin (.binary .eq (.var "n") (.int 2)),
    .print (.call "f" [.var "n"]), .elseMark, .print (.var "n"), .endIf,
    .assign "n" (.binary .sub (.var "n") (.int 1)), .endWhile,
    .funcDecl "f" ["a"], .ret (.unary .not (.var "a")), .endFunc]

/-- The bytes of `countdown`. -/
theorem code_countdown : (assemble countdown).map Image.code = .ok
    [0x10, 3, 3, 0x60, 3, 39, 0x12, 5, 0x83, 2, 0x10, 4, 1, 0x50, 5, 3, 0x10, 4, 0, 0x52,
      0x50, 4, 14, 0x11, 0, 0x83, 0, 0x30, 46, 0x11, 4, 0x81, 0, 0x20, 4, 0x51, 2, 0x20, 3, 0x52,
      0x12, 3, 0x83, 1, 0x61, 0xFF, 0x11, 2, 0x80, 0, 0x10, 1, 1, 0x50, 2, 3, 0x10, 1, 0, 0x52,
      0x40] :=
  assemble_of_levels (fun _ => 0) (by decide) (by decide +kernel)

/-- `countdown` is assembled, so its code is accepted and its skips are exact. -/
theorem assemble_structured_countdown : ∃ image, assemble countdown = .ok image ∧
    ∃ decoded, disassemble image.code = .ok decoded ∧ verify image.code = .ok () ∧
      Structured decoded := by
  obtain ⟨image, h, -⟩ := map_eq_ok.1 code_countdown
  exact ⟨image, h, assemble_structured h⟩

end ImpMachine
