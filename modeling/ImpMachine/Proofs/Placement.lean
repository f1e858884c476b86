import ImpMachine.Proofs.InternalErrors

/-!
# What the two passes leave

The first pass only measures. The second writes every function behind the place of the top-level
code, in order, and then the top-level code into that place. So the code is the top-level code, a
stop, and the functions (`Assembled`), once the drafts of both have a shape. The second pass finds
every body as long as the first measured it, so what can stop assembly is a fault of the program
(`gives_assemble`).
-/

namespace ImpMachine

open List

variable {labels : List (String × Nat)} {spans : List Span} {rs : List Routine} {ds : List Draft}
variable {name : String} {before : Code} {offset : Nat} {r : Routine} {b b' : Bindings}
variable {main : Draft} {code : List Linear.Instr} {image : Image}

theorem Buffer.seek_of (before : Code) (labels : List (String × Nat)) (fixups : List Fixup)
    (blocks : List BlockBounds) :
    (Buffer.of before [] labels fixups blocks).seek before.length =
      .of before [] labels fixups blocks := by
  simp [seek, of]

theorem Buffer.seek_zero_of (before : Code) (labels : List (String × Nat)) (fixups : List Fixup)
    (blocks : List BlockBounds) :
    (Buffer.of before [] labels fixups blocks).seek 0 = .of [] before labels fixups blocks := by
  simp [seek, of]

namespace Assembly

open Linear

variable {blocks : List BlockBounds} {fixups : List Fixup} {functions : Draft}

/-! ## Whole bodies -/

variable (table : FunctionTable)

/-- Lowering the code of a tree writes its draft. -/
theorem lowerBody_flatten (body : Body) (buffer : Buffer) (b : Bindings) (cs : List OpenConstruct) :
    lowerBody table body.flatten (.of buffer b cs) =
      (body.draft table b).map fun r => ((), .of (r.1.write buffer) r.2 []) := by
  have hlower := lowerFrom_flatten table body 0 [] buffer b []
  rw [append_nil] at hlower
  unfold lowerBody
  rw [bind_apply, modify_apply]
  change ((lowerFrom table 0 body.flatten (.of buffer b [])).bind _) = _
  rw [hlower]
  rcases body.draft table b with e | ⟨d, b⟩ <;> rfl

theorem lowerMain_flatten (body : Body) (buffer : Buffer) (b : Bindings) (cs : List OpenConstruct) :
    lowerMain table body.flatten (.of buffer b cs) =
      (mainDraft table body b).map fun r => ((), .of (r.1.write buffer) r.2 []) := by
  rw [lowerMain, bind_apply, lowerBody_flatten, mainDraft, bind_apply]
  rcases body.draft table b with e | ⟨d, b⟩
  · rfl
  · simp only [Except.map, Except.bind, pure_apply, Draft.write_append]
    rfl

/-- The top-level code is written as its draft. -/
theorem gives_lowerMain (body : Body) (buffer : Buffer) (b : Bindings) (cs : List OpenConstruct) :
    Gives (lowerMain table body.flatten (.of buffer b cs)) fun r =>
      ∃ main b', mainDraft table body b = .ok (main, b') ∧ r.2 = .of (main.write buffer) b' [] := by
  rw [lowerMain_flatten]
  cases hd : mainDraft table body b with
  | error e => exact (measured_mainDraft table body).not_isRuledOut hd
  | ok p => exact ⟨p.1, p.2, rfl, rfl⟩

theorem setLabel_of_lookup (offset : Nat) (h : labels.lookup name = none) :
    Buffer.setLabel name offset labels = labels ++ [(name, offset)] := by
  induction labels with
  | nil => rfl
  | cons label labels ih =>
    obtain ⟨other, at'⟩ := label
    rw [lookup_cons] at h
    split at h
    · cases h
    · rename_i hne
      have hne : other ≠ name := fun heq => by simp [heq] at hne
      rw [Buffer.setLabel, if_neg hne, ih h, cons_append]

theorem defineLabel_of {after : Code} {cs : List OpenConstruct} :
    defineLabel name (.of (.of before after labels fixups blocks) b cs) =
      match labels.lookup name with
      | some _ => .error (.duplicateFunction name)
      | none =>
        .ok ((),
          .of (.of before after (labels ++ [(name, before.length)]) fixups blocks) b cs) := by
  cases h : labels.lookup name with
  | some _ => simp [defineLabel, Buffer.defineLabel, Buffer.of, Progress.of, h, Except.map]
  | none =>
    simp [defineLabel, Buffer.defineLabel, Buffer.of, Progress.of, h, Except.map,
      setLabel_of_lookup before.length h]

/-- Lowering a function writes its draft behind a label that must be new. -/
theorem lowerFunction_of (r : Routine) (before after : Code) (labels : List (String × Nat))
    (fixups : List Fixup) (blocks : List BlockBounds) (b : Bindings) (cs : List OpenConstruct) :
    lowerFunction table r.function (.of (.of before after labels fixups blocks) b cs) =
      match labels.lookup r.name with
      | some _ => .error (.duplicateFunction r.name)
      | none => (r.draft table b).map fun p =>
        ((), .of (p.1.write
          (.of before after (labels ++ [(r.name, before.length)]) fixups blocks)) p.2 []) := by
  unfold lowerFunction
  rw [bind_apply]
  change ((defineLabel r.name >>= _) (.of (.of before after labels fixups blocks)
    { b with registers := b.registers.resetTouched } cs)) = _
  rw [bind_apply, defineLabel_of]
  cases hlabel : labels.lookup r.name with
  | some _ => rfl
  | none =>
    have hbody : lowerBody table r.function.body _ = _ := lowerBody_flatten table r.body
      (.of before after (labels ++ [(r.name, before.length)]) fixups blocks)
      ⟨b.registers.resetTouched, some ⟨r.function.name, r.function.params⟩⟩ cs
    have hdraft : r.draft table b = (r.body.draft table ⟨b.registers.resetTouched,
        some ⟨r.function.name, r.function.params⟩⟩).map fun p =>
          (if endsInReturn r.function.body then p.1 else p.1.append (.code (plain [.ret]) .nil),
            ⟨p.2.registers.reserveTouched, none⟩) := by
      change Except.bind (r.body.draft table ⟨b.registers.resetTouched,
        some ⟨r.function.name, r.function.params⟩⟩) _ = _
      cases r.body.draft table _ <;> rfl
    simp only [Except.bind, bind_apply, modify_apply, Progress.of] at hbody ⊢
    rw [hbody, hdraft]
    cases hd : r.body.draft table ⟨b.registers.resetTouched,
        some ⟨r.function.name, r.function.params⟩⟩ with
    | error e => rfl
    | ok p =>
      cases hret : endsInReturn r.function.body with
      | true => rfl
      | false =>
        simp only [Except.map, Bool.false_eq_true, if_false, Draft.write_append]
        rfl

/-- A function is written as its draft, behind a label that it did not have. -/
theorem gives_lowerFunction (r : Routine) (before after : Code) (labels : List (String × Nat))
    (fixups : List Fixup) (blocks : List BlockBounds) (b : Bindings) (cs : List OpenConstruct) :
    Gives (lowerFunction table r.function (.of (.of before after labels fixups blocks) b cs))
      fun p => ∃ d b', r.draft table b = .ok (d, b') ∧ p.2 = .of
        (d.write (.of before after (labels ++ [(r.name, before.length)]) fixups blocks)) b' [] := by
  rw [lowerFunction_of]
  split
  · exact id
  · cases hd : r.draft table b with
    | error e => exact (measured_routine table r).not_isRuledOut hd
    | ok p => exact ⟨p.1, p.2, rfl, rfl⟩

/-! ## Functions in order -/

/-- The spans follow one another from an offset on. -/
def Consecutive : Nat → List Span → Prop
  | _, [] => True
  | offset, span :: rest => span.start = offset ∧ Consecutive span.stop rest

theorem Consecutive.shift {distance : Nat} (h : Consecutive offset spans) :
    Consecutive (distance + offset)
      (spans.map fun span => { span with start := distance + span.start }) := by
  induction spans generalizing offset with
  | nil => trivial
  | cons span rest ih =>
    refine ⟨congrArg (distance + ·) h.1, ?_⟩
    have hstop : Span.stop { span with start := distance + span.start } = distance + span.stop := by
      simp only [Span.stop]
      omega
    rw [hstop]
    exact ih h.2

/-- The first pass measures the drafts of functions one behind the other. -/
theorem gives_measureFunctions (rs : List Routine) (before : Code) (labels : List (String × Nat))
    (fixups : List Fixup) (blocks : List BlockBounds) (b : Bindings) :
    Gives ((rs.map Routine.function).mapM (measureFunction table)
      (.of (.of before [] labels fixups blocks) b [])) fun r =>
        ∃ ds b', draftAll table rs b = .ok (ds, b') ∧ ds.map Draft.size = r.1.map Span.length ∧
          r.1.length = rs.length ∧ Consecutive before.length r.1 ∧
          ∃ before' labels' fixups' blocks',
            r.2 = .of (.of before' [] labels' fixups' blocks') b' [] := by
  induction rs generalizing before labels fixups blocks b with
  | nil => exact ⟨[], b, rfl, rfl, rfl, trivial, _, _, _, _, rfl⟩
  | cons r rs ih =>
    have hmeasure : Gives (measureFunction table r.function
        (.of (.of before [] labels fixups blocks) b [])) fun p =>
          ∃ d b' bytes labels' fixups' blocks', r.draft table b = .ok (d, b') ∧
            bytes.length = d.size ∧ p = (⟨before.length, d.size⟩,
              .of (.of (before ++ bytes) [] labels' fixups' blocks') b' []) := by
      refine .after rfl ((gives_lowerFunction table r before [] labels fixups blocks b []).run ?_)
      rintro _ _ ⟨d, b', hd, rfl⟩
      rw [Draft.write_of, drop_nil]
      refine ⟨d, b', _, _, _, _, hd, d.length_pieceBytes_pieces _, Prod.ext ?_ rfl⟩
      simp [Progress.of]
    rw [map_cons, mapM_cons]
    refine hmeasure.run ?_
    rintro _ _ ⟨d, b₁, bytes, labels', fixups', blocks', hd, hbytes, ⟨⟩⟩
    refine (ih (before ++ bytes) labels' fixups' blocks' b₁).run ?_
    rintro spans _ ⟨ds, b', hds, hsizes, hlength, hspans, hs⟩
    rw [length_append, hbytes] at hspans
    exact ⟨d :: ds, b', run_bind_eq_ok.2 ⟨d, b₁, hd, run_bind_eq_ok.2 ⟨ds, b', hds, rfl⟩⟩,
      congrArg (d.size :: ·) hsizes, congrArg (· + 1) hlength, ⟨rfl, hspans⟩, hs⟩

theorem checkEnd_of_eq {label : String} {expected : Nat} {s : Progress}
    (h : expected = s.buffer.cursor) : checkEnd label expected s = .ok ((), s) := by
  change (if expected ≠ s.buffer.cursor then _ else _ : Lowering Unit) s = _
  rw [if_neg (not_not.2 h)]
  rfl

/-- A function ends where the first pass measured its end. -/
theorem gives_placeFunction {d : Draft} (hd : r.draft ⟨table.signatures, []⟩ b = .ok (d, b')) :
    Gives (placeFunction table r.function ⟨before.length, d.size⟩
      (.of (.of before [] labels fixups blocks) b [])) fun p =>
        ∃ d', r.draft table b = .ok (d', b') ∧ d'.size = d.size ∧ p.2 = .of
          (d'.write (.of before [] (labels ++ [(r.name, before.length)]) fixups blocks)) b' [] := by
  refine .after (onBuffer_apply _ _ _ _) ?_
  rw [Buffer.seek_of]
  refine (gives_lowerFunction table r before [] labels fixups blocks b []).run ?_
  rintro _ _ ⟨d', b₁, hd', rfl⟩
  obtain ⟨e, he, hsize⟩ := (measured_routine table r).eq_ok hd'
  cases hd.symm.trans he
  rw [checkEnd_of_eq (by simp [Progress.of, Draft.write_of, Span.stop, hsize])]
  exact ⟨d', hd', hsize, rfl⟩

/-- The second pass writes drafts one behind the other, as long as their spans. -/
theorem gives_placeFunctions (hspans : Consecutive before.length spans)
    (hds : draftAll ⟨table.signatures, []⟩ rs b = .ok (ds, b'))
    (hsizes : ds.map Draft.size = spans.map Span.length) :
    Gives ((((rs.map Routine.function).zip spans).forM
      (fun (f, span) => placeFunction table f span) : Lowering Unit)
        (.of (.of before [] labels fixups blocks) b [])) fun p =>
      ∃ ds', draftAll table rs b = .ok (ds', b') ∧ ds'.map Draft.size = spans.map Span.length ∧
        p.2 = .of ((Draft.join ds').write (.of before []
          (labels ++ (rs.map Routine.name).zip (spans.map Span.start)) fixups blocks)) b' [] := by
  induction rs generalizing spans before labels fixups blocks b ds with
  | nil =>
    cases hds
    cases map_eq_nil_iff.1 hsizes.symm
    exact ⟨[], rfl, rfl, by simp [Draft.join, Draft.write]⟩
  | cons r rs ih =>
    obtain ⟨d, b₁, hd, hds⟩ := run_bind_eq_ok.1 hds
    obtain ⟨ds, b₂, hds, ⟨⟩⟩ := run_bind_eq_ok.1 hds
    cases spans with
    | nil => cases hsizes
    | cons span spans =>
      obtain ⟨start, length⟩ := span
      obtain ⟨rfl, hspans⟩ := hspans
      obtain ⟨hlength, hrest⟩ := List.cons.inj hsizes
      dsimp only at hlength
      subst hlength
      rw [map_cons, zip_cons_cons, List.forM]
      refine (gives_placeFunction table hd).run ?_
      rintro _ _ ⟨d', hd', hsize, rfl⟩
      rw [Draft.write_of, drop_nil]
      refine (ih ?_ hds hrest).mono ?_
      · rwa [length_append, Draft.length_pieceBytes_pieces, hsize]
      rintro p ⟨ds', hds', hsizes', hp⟩
      refine ⟨d' :: ds', ?_, ?_, ?_⟩
      · exact run_bind_eq_ok.2 ⟨d', b₁, hd', run_bind_eq_ok.2 ⟨ds', b', hds', rfl⟩⟩
      · rw [map_cons, map_cons, hsizes', hsize]
      · rw [hp, Draft.join, Draft.write_append, Draft.write_of d', drop_nil]
        simp

theorem placeFunctions_gap {span : Span} (b : Bindings) :
    ((((r :: rs).map Routine.function).zip (span :: spans)).forM
      (fun (f, span) => placeFunction table f span) : Lowering Unit)
        (.of (.of [] [] [] [] []) b []) =
    ((((r :: rs).map Routine.function).zip (span :: spans)).forM
      (fun (f, span) => placeFunction table f span) : Lowering Unit)
        (.of (.of (List.replicate span.start 0) [] [] [] []) b []) := by
  have hseek : onBuffer (·.seek span.start) (.of (.of [] [] [] [] []) b []) =
      onBuffer (·.seek span.start) (.of (.of (List.replicate span.start 0) [] [] [] []) b []) := by
    simp [onBuffer_apply, Buffer.seek, Buffer.of]
  simp only [map_cons, zip_cons_cons, List.forM, placeFunction, bind_apply, hseek]

/-- The gap before the first function is as long as the top-level code. -/
theorem gives_placeFunctions_start (hlength : spans.length = rs.length)
    (hspans : Consecutive offset spans) (hds : draftAll ⟨table.signatures, []⟩ rs b = .ok (ds, b'))
    (hsizes : ds.map Draft.size = spans.map Span.length) :
    Gives ((((rs.map Routine.function).zip spans).forM
      (fun (f, span) => placeFunction table f span) : Lowering Unit)
        (.of (.of [] [] [] [] []) b [])) fun p =>
      ∃ ds' gap, draftAll table rs b = .ok (ds', b') ∧
        ds'.map Draft.size = spans.map Span.length ∧
        (gap ++ pieceBytes ((Draft.join ds').pieces 0)).drop offset =
          pieceBytes ((Draft.join ds').pieces 0) ∧
        p.2 = .of (.of (gap ++ pieceBytes ((Draft.join ds').pieces 0)) []
          ((rs.map Routine.name).zip (spans.map Span.start))
          (fixupsAt offset ((Draft.join ds').pieces 0)) ((Draft.join ds').bounds offset)) b' [] := by
  cases rs with
  | nil =>
    cases hds
    obtain rfl := length_eq_zero_iff.1 hlength
    exact ⟨[], [], rfl, rfl, by simp [Draft.join, Draft.pieces], rfl⟩
  | cons r rs =>
    obtain ⟨span, spans, rfl⟩ := exists_cons_of_length_eq_add_one hlength
    have hgap : (List.replicate offset (0 : UInt8)).length = offset := length_replicate
    rw [placeFunctions_gap, hspans.1]
    refine (gives_placeFunctions table (by rwa [hgap]) hds hsizes).mono ?_
    rintro p ⟨ds', hds', hsizes', hp⟩
    refine ⟨ds', List.replicate offset 0, hds', hsizes', drop_left' hgap, ?_⟩
    rw [hp]
    simp only [Draft.write_of, hgap, drop_nil, length_nil, nil_append]

/-! ## The two passes -/

/-- The step makes requests to the register map and changes nothing else. -/
def OnlyAllocates {α : Type} (x : Lowering α) : Prop :=
  ∀ buffer b cs, Gives (x (.of buffer b cs)) fun p => ∃ b', p.2 = .of buffer b' cs

namespace OnlyAllocates

variable {α β : Type}

theorem pure (a : α) : OnlyAllocates (pure a : Lowering α) := fun _ b _ => ⟨b, rfl⟩

theorem bind {x : Lowering α} {f : α → Lowering β} (hx : OnlyAllocates x)
    (hf : ∀ a, OnlyAllocates (f a)) : OnlyAllocates (x >>= f) := by
  intro buffer b cs
  refine (hx buffer b cs).run ?_
  rintro a _ ⟨b', rfl⟩
  exact hf a buffer b' cs

theorem bindGlobal (name : String) : OnlyAllocates (allocate (RegisterMap.bindGlobal name)) := by
  intro buffer b cs
  have hbinds : Keeps sameNames False Eq _ _ := keeps_bindGlobal sameNames name
  have hkeeps := keepsIn_request hbinds
  rw [allocate_apply]
  cases h : request (RegisterMap.bindGlobal name) b with
  | error e => exact hkeeps.not_isRuledOut h
  | ok p => exact ⟨p.2, rfl⟩

theorem forM {l : List α} {f : α → Lowering Unit} (hf : ∀ a, OnlyAllocates (f a)) :
    OnlyAllocates (l.forM f) := by
  induction l with
  | nil => exact pure ()
  | cons a l ih => exact (hf a).bind fun _ => ih

end OnlyAllocates

theorem onlyAllocates_bindParameters (functions : List Function) :
    OnlyAllocates (bindParameters functions) := by
  refine .bind (.forM fun f => .forM fun param => .bind (.bindGlobal _) fun _ => .pure ())
    fun _ => ?_
  split
  · exact .bind (.bindGlobal _) fun _ => .pure ()
  · exact .pure ()

/-- The first pass lays the functions out behind the top-level code. -/
theorem gives_measureAll (signatures : Signatures) (body : Body) (rs : List Routine) :
    Gives ((measureAll signatures ⟨body.flatten, rs.map Routine.function⟩).run' .start) fun layout =>
      ∃ b ds b' main b'', bindParameters (rs.map Routine.function) .start =
          .ok ((), .of .empty b []) ∧
        draftAll ⟨signatures, []⟩ rs b = .ok (ds, b') ∧
        mainDraft ⟨signatures, []⟩ body b' = .ok (main, b'') ∧ main.size = layout.mainLength ∧
        ds.map Draft.size = layout.spans.map Span.length ∧ layout.spans.length = rs.length ∧
        Consecutive layout.mainLength layout.spans := by
  refine .run' ((onlyAllocates_bindParameters _ .empty ⟨.empty, none⟩ []).eq_and.run ?_)
  rintro _ _ ⟨hparameters, b, rfl⟩
  refine (gives_measureFunctions _ rs [] [] [] [] b).run ?_
  rintro spans _ ⟨ds, b', hds, hsizes, hlength, hspans, before, labels, fixups, blocks, rfl⟩
  refine .after rfl ((gives_lowerMain _ body _ b' []).run ?_)
  rintro _ _ ⟨main, b'', hmain, rfl⟩
  refine ⟨b, ds, b', main, b'', hparameters, hds, hmain, ?_, ?_, by simpa using hlength,
    hspans.shift⟩
  · simp [Progress.of, Draft.write_of]
  · simpa [Function.comp_def] using hsizes

/-- The offsets of codes of given sizes, one behind the other. -/
def offsetsFrom : Nat → List Nat → List Nat
  | _, [] => []
  | offset, size :: sizes => offset :: offsetsFrom (offset + size) sizes

theorem Consecutive.starts_eq (h : Consecutive offset spans) :
    spans.map Span.start = offsetsFrom offset (spans.map Span.length) := by
  induction spans generalizing offset with
  | nil => rfl
  | cons span rest ih =>
    rw [map_cons, map_cons, offsetsFrom, h.1, ih h.2, Span.stop, h.1]

theorem mem_fixupsAt {p : Piece} {kind : FixupKind} {pieces : List Piece} (h : p ∈ pieces)
    (hkind : p.fixup = some kind) (offset : Nat) :
    ∃ position base, ⟨kind, position, base⟩ ∈ fixupsAt offset pieces := by
  induction pieces generalizing offset with
  | nil => cases h
  | cons q pieces ih =>
    rw [fixupsAt]
    rcases mem_cons.1 h with rfl | h
    · exact ⟨_, _, mem_append_left _ (by rw [hkind]; exact mem_singleton_self _)⟩
    · obtain ⟨position, base, hmem⟩ := ih h (offset + q.instruction.width)
      exact ⟨position, base, mem_append_right _ hmem⟩

/-- The code before anything is filled in: the top-level code, and functions that were written
first. -/
def unresolved (main functions : Draft) (labels : List (String × Nat)) : Buffer :=
  .of (pieceBytes (main.pieces functions.blockCount)) (pieceBytes (functions.pieces 0)) labels
    (fixupsAt main.size (functions.pieces 0) ++ fixupsAt 0 (main.pieces functions.blockCount))
    (functions.bounds main.size ++ main.bounds 0)

/-- Filling in leaves the shapes of the top-level code and the functions. -/
theorem resolve_unresolved {final : Buffer}
    (h : (unresolved main functions labels).resolve = (final, .ok ())) {s t : Shape}
    (hs : main.HasShape s) (ht : functions.HasShape t) :
    s.Fits ∧ t.Fits ∧ final.code.toList = encodeAll (s.instructions ++ t.instructions) := by
  have hblocks : (unresolved main functions labels).HasBlocks 0
      (functions.bounds main.size ++ main.bounds 0) := ⟨[], append_nil _⟩
  obtain ⟨hfunctions, hmain⟩ := hblocks.append
  rw [Draft.length_bounds, Nat.zero_add] at hmain
  -- the functions' bytes stand behind the top-level code, and theirs are filled in first
  have hbehind : Fills (unresolved main functions labels)
      (pieceBytes (main.pieces functions.blockCount)) (functions.pieces 0) t.instructions t.Fits :=
    ht.fills (by simpa using hfunctions)
  have hfront : Fills (unresolved main functions labels) [] (main.pieces functions.blockCount)
      s.instructions s.Fits :=
    hs.fills hmain
  obtain ⟨htfits, h⟩ := hbehind [] (fixupsAt 0 (main.pieces functions.blockCount)) final
    (by simpa [Buffer.resolve, unresolved, Buffer.of, Buffer.withCode] using h)
  obtain ⟨hsfits, h⟩ := hfront (encodeAll t.instructions) [] final (by simpa using h)
  cases h
  exact ⟨hsfits, htfits, by simp [Buffer.withCode]⟩

/-- What stops filling in is a fault of the program; else no call waits for a label. -/
theorem gives_resolveAll {sites sites' : List CallSite} (hmain : Makes table main.leaves sites)
    (hfunctions : Makes table functions.leaves sites') (b : Bindings) :
    Gives (resolveAll (.of (unresolved main functions table.addresses) b [])) fun p =>
      (unresolved main functions table.addresses).resolve = (p.2.buffer, .ok ()) ∧
        p.2.buffer.labels = table.addresses ∧
        ¬Waits table functions.leaves ∧ ¬Waits table main.leaves := by
  generalize hbuffer : unresolved main functions table.addresses = buffer
  have hsize : buffer.code.size = main.size + functions.size := by
    simp [← hbuffer, unresolved, Buffer.of]
  have hblocks : buffer.HasBlocks 0 (functions.bounds main.size ++ main.bounds 0) :=
    ⟨[], by simp [← hbuffer, unresolved, Buffer.of]⟩
  have hfixups : buffer.fixups.toList = fixupsAt main.size (functions.pieces 0) ++
      fixupsAt 0 (main.pieces functions.blockCount) := by
    simp [← hbuffer, unresolved, Buffer.of]
  obtain ⟨hbehind, hfront⟩ := hblocks.append
  rw [Draft.length_bounds, Nat.zero_add] at hfront
  -- every fixup lies in the code and has a value, so all of them can be filled
  have hin : ∀ fixup ∈ buffer.fixups.toList, fixup.position < buffer.code.size := by
    rw [hfixups, hsize]
    refine forall_mem_append.2 ⟨fun fixup h => ?_, fun fixup h => ?_⟩
    · have hlt := position_lt_of_mem_fixupsAt h
      rwa [Draft.length_pieceBytes_pieces] at hlt
    · have hlt := position_lt_of_mem_fixupsAt h
      rw [Draft.length_pieceBytes_pieces] at hlt
      omega
  have hvalues : ∀ fixup ∈ buffer.fixups.toList, Gives (buffer.fixupValue fixup) fun _ => True := by
    rw [hfixups]
    exact forall_mem_append.2
      ⟨Draft.gives_fixupValue hbehind fun _ hp _ => hfunctions.fixup_eq hp,
        Draft.gives_fixupValue hfront fun _ hp _ => hmain.fixup_eq hp⟩
  have hfill : Gives buffer.resolve.2 fun _ => buffer.resolve.1.labels = buffer.labels ∧
      ∀ fixup ∈ buffer.fixups.toList, ∃ v, buffer.fixupValue fixup = .ok v :=
    Buffer.gives_fillAll hin hvalues
  have hlabels : buffer.labels = table.addresses := by
    rw [← hbuffer]
    rfl
  have hresolve : resolveAll (.of buffer b []) =
      buffer.resolve.2.map fun _ => ((), .of buffer.resolve.1 b []) := rfl
  rw [hresolve]
  cases hresult : buffer.resolve.2 with
  | error e => exact hfill.not_isRuledOut hresult
  | ok =>
    obtain ⟨hkept, hvalues⟩ := hfill.eq_ok hresult
    -- a call that waits would be a fixup without a value
    have hvalue {callee : String} {position base : Nat}
        (hlookup : table.addresses.lookup callee = none)
        (hmem : ⟨.call callee, position, base⟩ ∈ buffer.fixups.toList) : False := by
      obtain ⟨v, hv⟩ := hvalues _ hmem
      simp [Buffer.fixupValue, hlabels, hlookup] at hv
    rw [hfixups] at hvalue
    refine ⟨Prod.ext rfl hresult, hkept.trans hlabels, ?_, ?_⟩
    · rintro ⟨callee, hlookup, hmem⟩
      obtain ⟨position, base, hfixup⟩ :=
        mem_fixupsAt (Draft.mem_pieces_of_mem_leaves hmem 0) rfl main.size
      exact hvalue hlookup (mem_append_left _ hfixup)
    · rintro ⟨callee, hlookup, hmem⟩
      obtain ⟨position, base, hfixup⟩ :=
        mem_fixupsAt (Draft.mem_pieces_of_mem_leaves hmem functions.blockCount) rfl 0
      exact hvalue hlookup (mem_append_right _ hfixup)

end Assembly

open Assembly

/-! ## Assembled code -/

/-- What assembling has found out about linear code, and where it put the code. -/
structure Assembled (code : List Linear.Instr) (image : Image) where
  /-- The code in its constructs. -/
  tree : Linear.Nested
  flatten_tree : tree.flatten = code
  acyclic : checkRecursion (tree.routines.map Routine.function) = .ok ()
  table : FunctionTable
  signatures_eq : signatures (tree.routines.map Routine.function) = .ok table.signatures
  /-- What the first pass measures. -/
  layout : Layout
  layout_eq : (measureAll table.signatures
    ⟨tree.body.flatten, tree.routines.map Routine.function⟩).run' .start = .ok layout
  /-- The registers of the parameters. -/
  initial : Bindings
  parameters_eq : bindParameters (tree.routines.map Routine.function) .start =
    .ok ((), .of .empty initial [])
  /-- The drafts of the functions, and what they leave. -/
  drafts : List Draft
  between : Bindings
  drafts_eq : draftAll table tree.routines initial = .ok (drafts, between)
  /-- The draft of the top-level code. -/
  main : Draft
  final : Bindings
  main_eq : mainDraft table tree.body between = .ok (main, final)
  mainLength_eq : layout.mainLength = main.size
  lengths_eq : layout.spans.map Span.length = drafts.map Draft.size
  consecutive : Consecutive layout.mainLength layout.spans
  addresses_eq : table.addresses =
    (tree.routines.map Routine.name).zip (offsetsFrom main.size (drafts.map Draft.size))
  symbols_eq : symbolTable table.addresses = .ok image.symbols
  not_waits : ¬Waits table (Draft.join drafts).leaves ∧ ¬Waits table main.leaves
  code_eq : ∀ s t, main.HasShape s → (Draft.join drafts).HasShape t →
    s.Fits ∧ t.Fits ∧ image.code = encodeAll (s.instructions ++ t.instructions)

namespace Assembled

variable (a : Assembled code image)

theorem addresses_le : ∀ label ∈ a.table.addresses, label.2 ≤ maxAddress :=
  (gives_symbolTable _).eq_ok a.symbols_eq

theorem initial_eq (h : a.tree.routines = []) : a.initial = ⟨.empty, none⟩ := by
  have hparameters := a.parameters_eq
  rw [h] at hparameters
  generalize a.initial = b at hparameters
  obtain ⟨registers, scope⟩ := b
  cases hparameters
  rfl

end Assembled

/-- What the second pass does with the layout that the first has measured. -/
theorem gives_placeAll {signatures : Signatures} {body : Linear.Body} {layout : Layout}
    {b'' : Bindings} (hdeclares : FunctionTable.Declares
      ⟨signatures, (rs.map Routine.name).zip (layout.spans.map Span.start)⟩)
    (hparameters : bindParameters (rs.map Routine.function) .start = .ok ((), .of .empty b []))
    (hds : draftAll ⟨signatures, []⟩ rs b = .ok (ds, b'))
    (hmain : mainDraft ⟨signatures, []⟩ body b' = .ok (main, b''))
    (hmainLength : main.size = layout.mainLength)
    (hsizes : ds.map Draft.size = layout.spans.map Span.length)
    (hlength : layout.spans.length = rs.length)
    (hspans : Consecutive layout.mainLength layout.spans) :
    Gives ((placeAll signatures ⟨body.flatten, rs.map Routine.function⟩ layout).run' .start)
      fun image =>
      ∃ (table : FunctionTable) (ds : List Draft) (main : Draft) (final : Buffer),
        table.signatures = signatures ∧ draftAll table rs b = .ok (ds, b') ∧
        mainDraft table body b' = .ok (main, b'') ∧
        layout.mainLength = main.size ∧ layout.spans.map Span.length = ds.map Draft.size ∧
        table.addresses = (rs.map Routine.name).zip (offsetsFrom main.size (ds.map Draft.size)) ∧
        symbolTable table.addresses = .ok image.symbols ∧
        (unresolved main (Draft.join ds) table.addresses).resolve = (final, .ok ()) ∧
        image.code = final.code.toList ∧
        ¬Waits table (Draft.join ds).leaves ∧ ¬Waits table main.leaves := by
  have hnames : ((rs.map Routine.function).map fun f => f.name) = rs.map Routine.name := by
    rw [map_map]
    rfl
  refine .run' ?_
  unfold placeAll
  simp only [hnames]
  generalize htable : FunctionTable.mk signatures _ = table at hdeclares ⊢
  obtain rfl : table.signatures = signatures := by rw [← htable]
  refine .after hparameters ((gives_placeFunctions_start table hlength hspans hds hsizes).run ?_)
  rintro _ _ ⟨ds', gap, hds', hsizes', hgap, rfl⟩
  refine .after (onBuffer_apply _ _ _ _) ?_
  rw [Buffer.seek_zero_of]
  refine (gives_lowerMain table body _ b' []).run ?_
  rintro _ _ ⟨main', _, hmain', rfl⟩
  -- the top-level code is as long as the first pass has it
  obtain ⟨e, he, hsize⟩ := (measured_mainDraft table body).eq_ok hmain'
  cases hmain.symm.trans he
  have hcursor : layout.mainLength = main'.size := by rw [← hmainLength, hsize]
  refine .after (checkEnd_of_eq (by simp [Progress.of, Draft.write_of, hcursor])) ?_
  rw [hcursor] at hgap
  have haddresses : table.addresses =
      (rs.map Routine.name).zip (layout.spans.map Span.start) := by rw [← htable]
  have hunresolved : main'.write (.of [] (gap ++ pieceBytes ((Draft.join ds').pieces 0))
      ((rs.map Routine.name).zip (layout.spans.map Span.start))
      (fixupsAt layout.mainLength ((Draft.join ds').pieces 0))
      ((Draft.join ds').bounds layout.mainLength)) =
        unresolved main' (Draft.join ds') table.addresses := by
    simp only [Draft.write_of, hgap, hcursor, unresolved, nil_append, length_nil,
      Draft.length_bounds, haddresses]
  rw [hunresolved]
  refine (gives_resolveAll table (makes_mainDraft hdeclares body _ _ _ hmain')
    (.join (makes_draftAll hdeclares rs _ _ _ hds')) _).run ?_
  rintro _ s ⟨hfill, hlabels, hwaits⟩
  refine .after rfl ?_
  rw [hlabels]
  cases hsymbols : symbolTable table.addresses with
  | error e => exact (gives_symbolTable _).not_isRuledOut hsymbols
  | ok symbols =>
    exact ⟨table, ds', main', s.buffer, rfl, hds', hmain', hcursor, hsizes'.symm,
      by rw [haddresses, hspans.starts_eq, hcursor, hsizes'], hsymbols, hfill, rfl, hwaits⟩

/-- **Assembled code is the top-level code followed by the functions.** -/
theorem gives_assemble (hnesting : Linear.checkNesting code = .ok ()) :
    Gives (assemble code) fun image => Nonempty (Assembled code image) := by
  unfold assemble
  rw [hnesting]
  obtain ⟨tree, rfl⟩ := Linear.exists_nested_of_checkNesting hnesting
  rw [Linear.Nested.split_flatten]
  refine Gives.bind (gives_signatures tree.routines).eq_and ?_
  rintro signatures ⟨hsignatures, -⟩
  refine Gives.bind (gives_checkRecursion _).eq_and ?_
  rintro _ ⟨hacyclic, -⟩
  refine Gives.bind (gives_measureAll signatures tree.body tree.routines).eq_and ?_
  rintro layout ⟨hlayout, b, _, b', _, b'', hparameters, hds, hmain, hmainLength, hsizes,
    hlength, hspans⟩
  refine (gives_placeAll (declares_of_signatures hsignatures _) hparameters hds hmain hmainLength
    hsizes hlength hspans).mono ?_
  rintro image ⟨table, ds, main, final, rfl, hds, hmain, hmainLength, hlengths, haddresses,
    hsymbols, hfill, hcode, hwaits⟩
  exact ⟨{
    tree := tree
    flatten_tree := rfl
    acyclic := hacyclic
    table := table
    signatures_eq := hsignatures
    layout := layout
    layout_eq := hlayout
    initial := b
    parameters_eq := hparameters
    drafts := ds
    between := b'
    drafts_eq := hds
    main := main
    final := b''
    main_eq := hmain
    mainLength_eq := hmainLength
    lengths_eq := hlengths
    consecutive := hspans
    addresses_eq := haddresses
    symbols_eq := hsymbols
    not_waits := hwaits
    code_eq := fun s t hs ht => hcode ▸ resolve_unresolved hfill hs ht }⟩

/-- **Assembled code comes from drafts of its parts.** -/
theorem exists_assembled (h : assemble code = .ok image) : Nonempty (Assembled code image) := by
  cases hnesting : Linear.checkNesting code with
  | error fault =>
    rw [assemble, hnesting] at h
    cases h
  | ok => exact (gives_assemble hnesting).eq_ok h

/-- **Assembly has no internal errors.** -/
theorem not_isInternal_of_assemble {e : AssembleError}
    (h : assemble code = .error e) : ¬e.IsInternal := by
  cases hnesting : Linear.checkNesting code with
  | error fault =>
    rw [assemble, hnesting] at h
    cases h
    exact id
  | ok => exact fun he => (gives_assemble hnesting).not_isRuledOut h he.isRuledOut

/-- Where levels grow along calls, code is assembled with no search for recursion. -/
theorem assemble_of_levels {α : Type} {f : Image → α} {a : α} (level : String → Nat)
    (hlevel : ∀ f ∈ (split code).functions, ∀ callee ∈ f.callees, level f.name < level callee)
    (h : (Except.map f (match Linear.checkNesting code with
      | .error e => throw (AssembleError.unbalanced e)
      | .ok () => do
        let signatures ← signatures (split code).functions
        let layout ← (measureAll signatures (split code)).run' .start
        (placeAll signatures (split code) layout).run' .start)).toOption = some a) :
    (assemble code).map f = .ok a := by
  unfold assemble
  simp only [checkRecursion_of_levels level hlevel]
  exact eq_ok_of_toOption h

end ImpMachine
