import ImpMachine.Proofs.Refinement

/-!
# Assembling keeps what a program prints

Linear code without calls that declares its names, run directly, halts with some output exactly if
its assembled code, run by the machine without a step limit, halts with that output
(`assemble_refines`).
-/

namespace ImpMachine

open Assembly Linear RegisterMap List

/-! ## Code without declarations of functions -/

/-- Code without calls has no functions, so all of it is top-level code. -/
theorem Linear.Nested.body_of_isCallFree {n : Nested} (h : ∀ i ∈ n.flatten, i.IsCallFree) :
    n.routines = [] ∧ n.body.flatten = n.flatten := by
  induction n with
  | nil => exact ⟨rfl, rfl⟩
  | plain i hi rest ih =>
    obtain ⟨hroutines, hbody⟩ := ih (forall_mem_cons.1 h).2
    exact ⟨hroutines, congrArg (i :: ·) hbody⟩
  | enclosed opener inner rest ihinner ihrest =>
    simp only [flatten, forall_mem_cons, forall_mem_append] at h
    obtain ⟨hfirst, hinner, -, hrest⟩ := h
    obtain ⟨hroutines, hbody⟩ := ihinner hinner
    obtain ⟨hroutines', hbody'⟩ := ihrest hrest
    cases opener with
    | conditional | loop | block =>
      constructor
      · simp [routines, hroutines, hroutines']
      · rw [body, Body.flatten, hbody, hbody']
        rfl
    | function | macroBody => exact hfirst.elim
  | choice cond inner other rest ihinner ihother ihrest =>
    simp only [flatten, forall_mem_cons, forall_mem_append] at h
    obtain ⟨-, hinner, -, hother, -, hrest⟩ := h
    obtain ⟨hroutines, hbody⟩ := ihinner hinner
    obtain ⟨hroutines', hbody'⟩ := ihother hother
    obtain ⟨hroutines'', hbody''⟩ := ihrest hrest
    constructor
    · simp [routines, hroutines, hroutines', hroutines'']
    · rw [body, Body.flatten, hbody, hbody', hbody'']
      rfl

/-! ## Halting -/

/-- From the start the machine halts after some number of steps and has printed the words. -/
def Session.HaltsWith (config : RunConfig) (code : Code) (output : List Int64) : Prop :=
  ∃ fuel s, runFor config code fuel .start = (s, .halted) ∧ s.machine.output.toList = output

/-- The memory of a machine that was just started. -/
def Memory.initial : Memory := ⟨Vector.replicate _ 0, #[]⟩

section Halting

variable {code : Code} {config : RunConfig}

/-- A machine that gets to a halt prints what it has printed there. -/
theorem haltsWith_iff_of_leads {k : Nat} {m : Machine} (hlimit : config.maxSteps = none)
    (h : Session.start.machine.Leads code k m) (hm : m.status = .halted) (output : List Int64) :
    Session.HaltsWith config code output ↔ m.output.toList = output := by
  obtain ⟨last, rfl, hrun⟩ := h config hlimit .start rfl
  have hstopped : last.isActive code = false := by
    simp [Session.isActive, hm]
  have hlast : ∀ fuel, ∃ s, Session.runFor config code (k + fuel) .start = (s, .halted) ∧
      s.machine.output = last.machine.output := by
    intro fuel
    rw [hrun, Session.runFor_of_not_isActive _ hstopped]
    exact ⟨_, rfl, rfl⟩
  constructor
  · rintro ⟨fuel, s, hs, rfl⟩
    obtain ⟨s', hs', houtput⟩ := hlast fuel
    have hmore := Session.runFor_add_of_halted hs k
    rw [Nat.add_comm, hs'] at hmore
    cases hmore
    rw [houtput]
  · rintro rfl
    obtain ⟨s, hs, houtput⟩ := hlast 0
    exact ⟨k, s, hs, congrArg Array.toList houtput⟩

/-- **Code that ends in a halt prints what its tree prints.** Without a result, it runs on. -/
theorem haltsWith_iff_run {s : Shape} (hfits : s.Fits) (hall : s.All Instruction.IsSimple)
    (hlimit : config.maxSteps = none) (output : List Int64) :
    Session.HaltsWith config (encodeAll (s.instructions ++ [.halt])) output ↔
      ∃ bound mem, s.run bound .initial = some mem ∧ mem.output.toList = output := by
  have hvalid : ∀ i ∈ s.instructions ++ [.halt], i.Valid :=
    forall_mem_append.2 ⟨Shape.valid_instructions hall, by simp [Instruction.Valid]⟩
  have hcode : CodeAt (encodeAll (s.instructions ++ [.halt])) 0 (s.instructions ++ [.halt]) :=
    fun d hd => decode_of_mem_place hvalid hd
  obtain ⟨hbody, hlast⟩ := hcode.append
  rw [Shape.length_encodeAll_instructions] at hlast
  have hout := fun bound => outcome_run bound hfits hall hbody .initial [] []
  have hhalts : ∀ {bound mem}, s.run bound .initial = some mem →
      (Session.HaltsWith config (encodeAll (s.instructions ++ [.halt])) output ↔
        mem.output.toList = output) := by
    intro bound mem hrun
    have hout := hout bound
    rw [hrun] at hout
    obtain ⟨k, hleads⟩ := hout
    exact haltsWith_iff_of_leads hlimit
      (hleads.trans (Machine.leads_execute rfl hlast.head (by simp))) rfl output
  constructor
  · intro h
    have hhalted := h
    obtain ⟨fuel, final, hfinal, -⟩ := hhalted
    cases hrun : s.run fuel .initial with
    | none =>
      -- the run would not be finished yet
      have hout := hout fuel
      rw [hrun] at hout
      have hunfinished := hout config hlimit .start rfl
      rw [hfinal] at hunfinished
      cases hunfinished
    | some mem => exact ⟨fuel, mem, hrun, (hhalts hrun).1 h⟩
  · rintro ⟨bound, mem, hrun, houtput⟩
    exact (hhalts hrun).2 houtput

end Halting

/-! ## Assembled programs -/

/-- The top-level code of a program without functions is all there is. -/
theorem exists_draft_of_assemble {body : Body} {image : Image}
    (hfree : ∀ i ∈ body.flatten, i.IsCallFree) (h : assemble body.flatten = .ok image) :
    ∃ table d b, body.draft table ⟨.empty, none⟩ = .ok (d, b) ∧
      ∀ s : Shape, d.HasShape s → s.Fits ∧ image.code = encodeAll (s.instructions ++ [.halt]) := by
  obtain ⟨a⟩ := exists_assembled h
  rw [← a.flatten_tree] at hfree
  obtain ⟨hroutines, hbody⟩ := Nested.body_of_isCallFree hfree
  have hbody : a.tree.body = body := Body.flatten_injective (hbody.trans a.flatten_tree)
  have hdrafts := a.drafts_eq
  have hmain := a.main_eq
  rw [hroutines, a.initial_eq hroutines] at hdrafts
  obtain ⟨hnil, hbetween⟩ := Prod.mk.inj (Except.ok.inj hdrafts)
  rw [hbody, ← hbetween] at hmain
  obtain ⟨d, hd, hdmain⟩ := mainDraft_eq_ok hmain
  refine ⟨a.table, d, a.final, hd, fun s hs => ?_⟩
  have hstop : a.main.HasShape (s.append (.plain .halt trivial .nil)) := by
    rw [hdmain]
    exact hs.append_halt
  have hjoin : (Draft.join a.drafts).HasShape .nil := by
    rw [← hnil]
    exact .nil
  obtain ⟨hsfits, -, hcode⟩ := a.code_eq _ _ hstop hjoin
  refine ⟨(Shape.fits_append.1 hsfits).1, ?_⟩
  rw [hcode, Shape.instructions_append]
  simp [Shape.instructions]

theorem output_iff_of_rel {m : RegisterMap} {known : List String} {x : Option State}
    {y : Option Memory} (h : Option.Rel (Related m known) x y) (output : List Int64) :
    (∃ mem, y = some mem ∧ mem.output.toList = output) ↔
      ∃ final, x = some final ∧ final.output.toList = output := by
  cases h with
  | some h => simp [h.output]
  | none => simp

/-- **Assembled code prints what the program prints.** A program without calls that declares its
names halts with some output exactly if its assembled code does, run without a step limit. -/
theorem assemble_refines {code : List Instr} {image : Image}
    (hfree : ∀ i ∈ code, i.IsCallFree) (hdeclared : Declared code)
    (h : assemble code = .ok image) {config : RunConfig} (hlimit : config.maxSteps = none)
    (output : List Int64) :
    Session.HaltsWith config image.code output ↔ Linear.HaltsWith code output := by
  obtain ⟨body, rfl, hdeclared⟩ := hdeclared
  obtain ⟨table, d, b, hd, hcode⟩ := exists_draft_of_assemble hfree h
  obtain ⟨m', -, -, s, hs, hall, hsim⟩ :=
    refines_draft hfree hdeclared ⟨unique_empty, by simp [Binds]⟩ hd
  obtain ⟨hfits, hcode⟩ := hcode s hs
  have hstart : Related .empty [] .initial .initial := ⟨rfl, by simp [Agrees]⟩
  rw [hcode, haltsWith_iff_run hfits hall hlimit]
  constructor
  · rintro ⟨bound, hmachine⟩
    exact ⟨body, rfl, bound, (output_iff_of_rel (hsim bound _ _ hstart) output).1 hmachine⟩
  · rintro ⟨body', hflatten, bound, hprogram⟩
    obtain rfl := Body.flatten_injective hflatten
    exact ⟨bound, (output_iff_of_rel (hsim bound _ _ hstart) output).2 hprogram⟩

/-- Adds up even numbers from `6` down, in a loop over a remainder, with a variable of a block and a
choice over a comparison. -/
def evenSums : Body :=
  .plain (.declare "n" (.int 3)) ⟨rfl, rfl, nofun⟩ <|
  .plain (.declare "sum" (.int 0)) ⟨rfl, rfl, nofun⟩ <|
  .loop (.binary .mod (.var "n") (.int 4))
    (.block
      (.plain (.declare "term" (.binary .mul (.var "n") (.int 2))) ⟨rfl, rfl, nofun⟩ <|
        .plain (.assign "sum" (.binary .add (.var "sum") (.var "term"))) ⟨rfl, rfl, nofun⟩ .nil) <|
      .choice (.binary .lt (.var "n") (.int 3))
        (.plain (.print (.var "sum")) ⟨rfl, rfl, nofun⟩ .nil)
        (.plain (.print (.unary .neg (.var "sum"))) ⟨rfl, rfl, nofun⟩ .nil) <|
      .plain (.assign "n" (.binary .sub (.var "n") (.int 1))) ⟨rfl, rfl, nofun⟩ .nil)
    (.plain (.print (.var "sum")) ⟨rfl, rfl, nofun⟩ .nil)

theorem isCallFree_evenSums : ∀ i ∈ evenSums.flatten, i.IsCallFree := by
  decide

theorem declared_evenSums : evenSums.Declared [] := by
  decide

theorem run_evenSums : (evenSums.run 3 .initial).map (·.output.toList) = some [-6, 10, 12, 12] := by
  decide +kernel

theorem assembled_evenSums : (assemble evenSums.flatten).map (fun _ => ()) = .ok () :=
  assemble_of_levels (fun _ => 0) (by decide) (by decide +kernel)

/-- The assembled code of `evenSums` halts and has printed what `evenSums` prints. -/
theorem assemble_refines_evenSums : ∃ image, assemble evenSums.flatten = .ok image ∧
    (∀ i ∈ evenSums.flatten, i.IsCallFree) ∧ Linear.Declared evenSums.flatten ∧
      Session.HaltsWith ⟨none, 256, false⟩ image.code [-6, 10, 12, 12] := by
  have hdeclared : Linear.Declared evenSums.flatten := ⟨evenSums, rfl, declared_evenSums⟩
  obtain ⟨image, h, -⟩ := map_eq_ok.1 assembled_evenSums
  obtain ⟨final, hrun, houtput⟩ := Option.map_eq_some_iff.1 run_evenSums
  refine ⟨image, h, isCallFree_evenSums, hdeclared, ?_⟩
  exact (assemble_refines isCallFree_evenSums hdeclared h rfl _).2
    ⟨evenSums, rfl, 3, final, hrun, houtput⟩

end ImpMachine
