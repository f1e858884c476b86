import ImpMachine.Proofs.Linked

/-!
# The layout of assembled code

Where the code of a program lies in its image (`LaidOut`). The top-level code and a stop come first,
then every function in order, each ending in a return, with nothing between them and each as long as
the first pass measured it. The symbol table has the first byte of each function, and every call in
the code goes to the symbol of the function that is named there (`assemble_laidOut`).
-/

namespace ImpMachine

open Assembly List

variable {addr : UInt8} {symbols : Symbols} {code : List Linear.Instr} {image : Image}

/-! ## Symbol tables -/

namespace Symbols

theorem mem_insertInto_iff {name : String} {entries : List (String × UInt8)}
    (hname : ∀ entry ∈ entries, entry.1 ≠ name) {x : String × UInt8} :
    x ∈ insertInto name addr entries ↔ x = (name, addr) ∨ x ∈ entries := by
  refine ⟨mem_insertInto, fun hx => ?_⟩
  induction entries with
  | nil => simpa [insertInto] using hx
  | cons entry rest ih =>
    obtain ⟨hentry, hrest⟩ := forall_mem_cons.1 hname
    unfold insertInto
    split
    · exact mem_cons.2 hx
    · rw [if_neg (Ne.symm hentry)]
      rcases hx with hx | hx
      · exact mem_cons_of_mem _ (ih hrest (.inl hx))
      · rcases mem_cons.1 hx with rfl | hx
        · exact mem_cons_self ..
        · exact mem_cons_of_mem _ (ih hrest (.inr hx))

end Symbols

namespace Assembly

variable {table : FunctionTable} {labels : List (String × Nat)}

/-- Entering labels whose names are new, no two of them with one name. -/
theorem mem_entries_iff_of_foldlM {table : Symbols}
    (h : labels.foldlM (fun table (name, address) =>
      if maxAddress < address then .error (.functionTooFar name address)
      else .ok (table.insert name (UInt8.ofNat address))) table =
        (.ok symbols : Except AssembleError Symbols)) (hnames : (labels.map Prod.fst).Nodup)
    (hfresh : ∀ entry ∈ table.entries, entry.1 ∉ labels.map Prod.fst) (name : String)
    (addr : UInt8) : (name, addr) ∈ symbols.entries ↔
      (name, addr) ∈ table.entries ∨ (name, addr.toNat) ∈ labels := by
  induction labels generalizing table with
  | nil =>
    cases h
    simp
  | cons label labels ih =>
    obtain ⟨first, address⟩ := label
    obtain ⟨hfirst, hnames⟩ := nodup_cons.1 hnames
    simp only [map_cons, mem_cons, not_or] at hfresh
    rw [foldlM_cons] at h
    obtain ⟨table', htable, h⟩ := bind_eq_ok.1 h
    dsimp only at htable
    split at htable
    · cases htable
    rename_i hle
    cases htable
    have hmem {x : String × UInt8} : x ∈ (table.insert first (UInt8.ofNat address)).entries ↔
        x = (first, UInt8.ofNat address) ∨ x ∈ table.entries :=
      Symbols.mem_insertInto_iff fun entry hentry => (hfresh entry hentry).1
    have htoNat := toNat_ofNat_of_le (Nat.le_of_not_lt hle)
    have haddr : addr = UInt8.ofNat address ↔ addr.toNat = address := by
      rw [← UInt8.toNat_inj, htoNat]
    have hfresh' : ∀ entry ∈ (table.insert first (UInt8.ofNat address)).entries,
        entry.1 ∉ labels.map Prod.fst := by
      intro entry hentry
      rcases hmem.1 hentry with rfl | hentry
      · exact hfirst
      · exact (hfresh entry hentry).2
    rw [ih h hnames hfresh', hmem, mem_cons, Prod.mk.injEq, Prod.mk.injEq, haddr, or_assoc,
      or_left_comm]

/-- **The symbol table has the labels**, if no two of them have one name. -/
theorem mem_symbolTable_iff (h : symbolTable labels = .ok symbols)
    (hnames : (labels.map Prod.fst).Nodup) (name : String) (addr : UInt8) :
    (name, addr) ∈ symbols.entries ↔ (name, addr.toNat) ∈ labels := by
  rw [mem_entries_iff_of_foldlM h hnames (by simp [Symbols.empty])]
  simp [Symbols.empty]

/-! ## Layouts -/

/-- The instructions that a draft is written as, with its skips filled in. -/
def Draft.HasCode (d : Draft) (is : List Instruction) : Prop :=
  ∃ s : Shape, d.HasShape s ∧ s.instructions = is

/-- The call goes to the symbol of the function named, which has as many parameters as there are
arguments. -/
def Resolved (routines : List Routine) (image : Image) (addr : UInt8) (site : CallSite) : Prop :=
  (site.callee, addr) ∈ image.symbols.entries ∧
    ∃ r ∈ routines, r.name = site.callee ∧ r.params.length = site.arity

theorem Resolved.of_reaches {routines : List Routine}
    {site : CallSite} (hsignatures : table.signatures = routines.map fun r => (r.name, r.params))
    (hsymbols : ∀ name addr, (name, addr) ∈ image.symbols.entries ↔
      (name, addr.toNat) ∈ table.addresses) (h : Reaches table addr site) :
    Resolved routines image addr site := by
  obtain ⟨⟨params, hparams, harity⟩, haddress⟩ := h
  have hmem {β : Type} {l : List (String × β)} {b : β} (hlookup : l.lookup site.callee = some b) :
      (site.callee, b) ∈ l := by
    obtain ⟨front, back, rfl, -⟩ := lookup_eq_some_iff.1 hlookup
    simp
  refine ⟨(hsymbols _ _).2 (hmem haddress), ?_⟩
  obtain ⟨r, hr, heq⟩ := mem_map.1 (hsignatures ▸ hmem hparams)
  obtain ⟨hname, rfl⟩ := Prod.mk.inj heq
  exact ⟨r, hr, hname, harity⟩

theorem reaches_of_hasShape {d : Draft} {s : Shape} {i : Instruction} {sites : List CallSite}
    (hshape : d.HasShape s) {is : List Instruction} (his : s.instructions = is ++ [i])
    (hi : i.callee? = none) (hmakes : Makes table d.leaves sites) (hwaits : ¬Waits table d.leaves) :
    List.Forall₂ (Reaches table) (is.filterMap Instruction.callee?) sites := by
  have hcalls := hmakes.forall₂ hwaits
  rwa [← hshape.callees_eq, his, filterMap_append, filterMap_cons, hi,
    filterMap_nil, append_nil] at hcalls

theorem reaches_of_hasShapes {ds : List Draft} {rs : List Routine}
    {linked : List (Function × Shape)}
    (hshapes : List.Forall₂ (fun d r => d.HasShape (r.2.append retShape)) ds linked)
    (hmakes : List.Forall₂ (fun d r => Makes table d.leaves r.body.callSites) ds rs)
    (hwaits : ¬Waits table (Draft.join ds).leaves) :
    List.Forall₂ (fun is r => List.Forall₂ (Reaches table) (is.filterMap Instruction.callee?)
      r.body.callSites) (linked.map (·.2.instructions)) rs := by
  induction hshapes generalizing rs with
  | nil =>
    cases hmakes
    exact .nil
  | cons hshape _ ih =>
    obtain _ | ⟨hmake, hmakes⟩ := hmakes
    rw [Draft.join, Draft.leaves_append, waits_append, not_or] at hwaits
    exact .cons (reaches_of_hasShape hshape (Shape.instructions_append _ _) rfl hmake hwaits.1)
      (ih hmakes hwaits.2)

theorem encodeAll_routinesShape (linked : List (Function × Shape)) :
    encodeAll (routinesShape linked).instructions =
      (linked.map (·.2.instructions)).flatMap fun is => encodeAll (is ++ [.ret]) := by
  induction linked with
  | nil => rfl
  | cons r linked ih =>
    obtain ⟨f, s⟩ := r
    rw [routinesShape, Shape.instructions_append, Shape.instructions_append, encodeAll_append, ih]
    rfl

end Assembly

open Assembly

/-- How a program lies in its image: `main` are the instructions of the top-level code, `functions`
those of each function, without the stop and the returns at their ends. -/
structure LaidOut (tree : Linear.Nested) (main : List Instruction)
    (functions : List (List Instruction)) (layout : Layout) (image : Image) : Prop where
  /-- The first pass measures the layout. From the same registers the second pass, which knows where
  the functions will be, writes the instructions. -/
  passes : ∃ (table : FunctionTable) (b b' b'' : Bindings) (ds : List Draft) (d : Draft),
    signatures (tree.routines.map Routine.function) = .ok table.signatures ∧
    (measureAll table.signatures
      ⟨tree.body.flatten, tree.routines.map Routine.function⟩).run' .start = .ok layout ∧
    table.addresses = (tree.routines.map Routine.name).zip (layout.spans.map Span.start) ∧
    bindParameters (tree.routines.map Routine.function) .start = .ok ((), .of .empty b []) ∧
    draftAll table tree.routines b = .ok (ds, b') ∧ mainDraft table tree.body b' = .ok (d, b'') ∧
    d.HasCode (main ++ [.halt]) ∧
    List.Forall₂ (fun d is => d.HasCode (is ++ [.ret])) ds functions
  /-- The image is their code, in order. -/
  code_eq : image.code =
    encodeAll (main ++ [.halt]) ++ functions.flatMap fun is => encodeAll (is ++ [.ret])
  /-- Each part is as long as the layout has it, and each starts where the last one ends. -/
  mainLength_eq : layout.mainLength = (encodeAll (main ++ [.halt])).length
  lengths_eq : layout.spans.map Span.length =
    functions.map fun is => (encodeAll (is ++ [.ret])).length
  consecutive : Consecutive layout.mainLength layout.spans
  /-- The symbol table has the first byte of each function. -/
  symbols_iff : ∀ name addr, (name, addr) ∈ image.symbols.entries ↔
    (name, addr.toNat) ∈ (tree.routines.map Routine.name).zip (layout.spans.map Span.start)
  /-- The calls in the code are those of the call sites, in order. -/
  mainCalls : List.Forall₂ (Resolved tree.routines image) (main.filterMap Instruction.callee?)
    tree.body.callSites
  functionCalls : List.Forall₂ (fun is r => List.Forall₂ (Resolved tree.routines image)
    (is.filterMap Instruction.callee?) r.body.callSites) functions tree.routines

namespace Assembled

variable (a : Assembled code image)

theorem starts_eq : a.table.addresses =
    (a.tree.routines.map Routine.name).zip (a.layout.spans.map Span.start) := by
  rw [a.addresses_eq, a.consecutive.starts_eq, a.mainLength_eq, a.lengths_eq]

/-- Every function has a signature and an address. -/
theorem declares : a.table.Declares := by
  have hdeclares := declares_of_signatures a.signatures_eq (a.layout.spans.map Span.start)
  rwa [← a.starts_eq] at hdeclares

/-- The symbols are the addresses of the functions. -/
theorem symbols_iff (name : String) (addr : UInt8) :
    (name, addr) ∈ image.symbols.entries ↔ (name, addr.toNat) ∈ a.table.addresses := by
  refine mem_symbolTable_iff a.symbols_eq ?_ name addr
  have hlength := (makes_draftAll a.declares a.tree.routines _ _ _ a.drafts_eq).length_eq
  have hspans := congrArg List.length a.lengths_eq
  rw [length_map, length_map] at hspans
  rw [a.starts_eq, map_fst_zip (by rw [length_map, length_map]; omega)]
  exact ((gives_signatures _).eq_ok a.signatures_eq).2

end Assembled

/-- **The two passes agree and every call is resolved.** Assembly never fails by its own fault, and
what it makes is laid out as measured. -/
theorem assemble_laidOut (code : List Linear.Instr) :
    (∀ e, assemble code = .error e → ¬e.IsInternal) ∧
    ∀ image, assemble code = .ok image → ∃ tree main functions layout,
      tree.flatten = code ∧ LaidOut tree main functions layout image := by
  refine ⟨fun e => not_isInternal_of_assemble, fun image h => ?_⟩
  obtain ⟨a⟩ := exists_assembled h
  obtain ⟨hfunctions, hmain⟩ := a.not_waits
  obtain ⟨linked, -, hjoin, hsizes, -, hshapes⟩ := exists_routines a.drafts_eq hfunctions
  obtain ⟨d, hd, hdmain⟩ := mainDraft_eq_ok a.main_eq
  have hwaits : ¬Waits a.table d.leaves := fun hw => hmain <| by
    rw [hdmain, Draft.leaves_append]
    exact waits_append.2 (.inl hw)
  obtain ⟨s, hs, -⟩ := (formed_draft a.tree.body (fun c hc => hc) _ _ _ hd).resolve_right hwaits
  have hstop : a.main.HasShape (s.append (.plain .halt trivial .nil)) := hdmain ▸ hs.append_halt
  have hinstructions : (s.append (.plain .halt trivial .nil)).instructions =
      s.instructions ++ [.halt] := Shape.instructions_append _ _
  obtain ⟨-, -, hcode⟩ := a.code_eq _ _ hstop hjoin
  have hsymbols := a.symbols_iff
  have hresolved {addr : UInt8} {site : CallSite} (h : Reaches a.table addr site) :
      Resolved a.tree.routines image addr site :=
    .of_reaches ((gives_signatures _).eq_ok a.signatures_eq).1 hsymbols h
  refine ⟨a.tree, s.instructions, linked.map (·.2.instructions), a.layout, a.flatten_tree, {
    passes := ⟨a.table, a.initial, a.between, a.final, a.drafts, a.main, a.signatures_eq,
      a.layout_eq, a.starts_eq, a.parameters_eq, a.drafts_eq, a.main_eq, ⟨_, hstop, hinstructions⟩,
      ?_⟩
    code_eq := ?_
    mainLength_eq := ?_
    lengths_eq := ?_
    consecutive := a.consecutive
    symbols_iff := a.starts_eq ▸ hsymbols
    mainCalls := ?_
    functionCalls := ?_ }⟩
  · rw [forall₂_map_right_iff]
    exact hshapes.imp fun _ _ h => ⟨_, h, Shape.instructions_append _ _⟩
  · rw [hcode, encodeAll_append, hinstructions, encodeAll_routinesShape]
  · rw [a.mainLength_eq, hstop.size_eq, ← hinstructions, Shape.length_encodeAll_instructions]
  · rw [a.lengths_eq, hsizes, map_map]
    refine map_congr_left fun r _ => ?_
    rw [Function.comp_apply, encodeAll_append, length_append,
      Shape.length_encodeAll_instructions]
    rfl
  · exact (reaches_of_hasShape hstop hinstructions rfl
      (makes_mainDraft a.declares a.tree.body _ _ _ a.main_eq) hmain).imp fun _ _ => hresolved
  · exact (reaches_of_hasShapes hshapes (makes_draftAll a.declares a.tree.routines _ _ _ a.drafts_eq)
      hfunctions).imp fun _ _ h => h.imp fun _ _ => hresolved

/-- `countdown` is assembled, so its one call goes to the one symbol. -/
theorem assemble_laidOut_countdown : ∃ image, assemble countdown = .ok image ∧
    ∃ tree main functions layout,
      tree.flatten = countdown ∧ LaidOut tree main functions layout image := by
  obtain ⟨image, h, -⟩ := map_eq_ok.1 code_countdown
  exact ⟨image, h, (assemble_laidOut countdown).2 image h⟩

end ImpMachine
