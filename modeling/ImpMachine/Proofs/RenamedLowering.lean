import ImpMachine.Proofs.Placement

/-!
# Lowering under other names

Registers are found by name and given out in order, so the same registers serve the renamed names;
code waits for renamed labels at the same places. So what is lowered keeps pace with itself on
renamed input (`follows_lowerMain`, `follows_lowerFunction`).
-/

namespace ImpMachine

open List

open Assembly (Renaming)

/-! ## Code -/

/-- What an operand byte waits for, renamed. -/
def FixupKind.rename (f : String → String) : FixupKind → FixupKind
  | .call label => .call (f label)
  | kind => kind

namespace Assembly

open Linear

/-- The piece with its label renamed. -/
def Piece.rename (f : String → String) (piece : Piece) : Piece :=
  ⟨piece.instruction, piece.fixup.map (FixupKind.rename f)⟩

theorem map_rename_plain (f : String → String) (instructions : List Instruction) :
    (plain instructions).map (Piece.rename f) = plain instructions := by
  unfold plain
  rw [map_map]
  rfl

/-- The code is the other one with its labels renamed. -/
def SameCode (κ : Renaming) (p q : List Piece) : Prop := q = p.map (Piece.rename κ)

variable {κ : Renaming}

/-- A call waits for the renamed label. -/
theorem parallel_callPiece (table : FunctionTable) (scope scope' : Option Scope) (callee : String) :
    Parallel (fun a b => b = a.rename κ) (callPiece ⟨table, scope⟩ callee)
      (callPiece ⟨table.rename κ, scope'⟩ (κ callee)) := by
  have haddress : (table.rename κ).addresses.lookup (κ callee) = table.addresses.lookup callee := by
    unfold FunctionTable.rename
    rw [κ.lookup_map, Option.map_id_fun]
    rfl
  unfold callPiece
  dsimp only
  rw [haddress]
  cases table.addresses.lookup callee with
  | none => exact .ok rfl
  | some address =>
    dsimp only
    split
    · exact .both _ _
    · exact .ok rfl

/-- Renaming its labels is a relation of code. -/
theorem renamedRelation (table : FunctionTable) (scope : Option Scope) :
    CodeRelation κ True ⟨table, scope⟩ ⟨table.rename κ, scope.map (Scope.rename κ)⟩
      fun _ => SameCode κ where
  scope_eq := rfl
  signatures_eq := rfl
  append hp hq := by
    unfold SameCode at *
    rw [hp, hq, map_append]
  shaped _ := (map_rename_plain κ _).symm
  call {callee piece} _ _ _ hpiece := by
    have h := parallel_callPiece (κ := κ) table scope (scope.map (Scope.rename κ)) callee
    rw [hpiece] at h
    generalize callPiece _ (κ callee) = y at h ⊢
    cases h with
    | ok hab => exact ⟨_, rfl, congrArg (fun piece => [piece]) hab⟩
  far {callee e} he _ := by
    have h := parallel_callPiece (κ := κ) table scope (scope.map (Scope.rename κ)) callee
    rw [he] at h
    generalize callPiece _ (κ callee) = y at h ⊢
    cases h with
    | error _ hy => exact hy trivial

end Assembly

/-! ## Code under construction -/

namespace Buffer

/-- The code with its labels renamed. -/
def rename (f : String → String) (buffer : Buffer) : Buffer :=
  { buffer with
    labels := buffer.labels.map (Prod.map f id)
    fixups := buffer.fixups.map fun fixup => { fixup with kind := fixup.kind.rename f } }

theorem emit_rename (f : String → String) (buffer : Buffer) (i : Instruction) :
    (buffer.rename f).emit i = (buffer.emit i).rename f := by
  unfold emit
  induction i.encode generalizing buffer with
  | nil => rfl
  | cons b bytes ih => exact ih (buffer.writeByte b)

theorem emitFixup_rename (f : String → String) (buffer : Buffer) (i : Instruction)
    (kind : FixupKind) :
    (buffer.rename f).emitFixup i (kind.rename f) = (buffer.emitFixup i kind).rename f := by
  unfold emitFixup
  rw [emit_rename]
  unfold rename
  rw [Array.map_push]

variable (κ : Renaming)

theorem setLabel_rename (name : String) (offset : Nat) (labels : List (String × Nat)) :
    setLabel (κ name) offset (labels.map (Prod.map κ id)) =
      (setLabel name offset labels).map (Prod.map κ id) := by
  induction labels with
  | nil => rfl
  | cons label labels ih =>
    rw [map_cons, setLabel, setLabel, Prod.map_fst, ih]
    by_cases h : label.1 = name
    · rw [if_pos h, if_pos (κ.apply_inj.2 h)]
      rfl
    · rw [if_neg h, if_neg fun hκ => h (κ.apply_inj.1 hκ)]
      rfl

end Buffer

namespace Assembly

open Linear

theorem write_rename (f : String → String) (piece : Piece) (buffer : Buffer) :
    (piece.rename f).write (buffer.rename f) = (piece.write buffer).rename f := by
  obtain ⟨i, _ | kind⟩ := piece
  · exact buffer.emit_rename f i
  · exact buffer.emitFixup_rename f i kind

/-- Writing goes through renaming. -/
theorem SameCode.writePieces {p q : List Piece} (h : SameCode κ p q) (buffer : Buffer) :
    writePieces q (buffer.rename κ) = (writePieces p buffer).rename κ := by
  unfold Assembly.writePieces
  rw [h]
  clear h
  induction p generalizing buffer with
  | nil => rfl
  | cons piece p ih =>
    rw [map_cons, foldl_cons, write_rename, ih, foldl_cons]

/-- Skips wait for blocks, which have no names. -/
theorem DraftsAlike.write_rename {s : List CallSite} {d e : Draft}
    (h : DraftsAlike (fun _ => SameCode κ) s d e) (buffer : Buffer) :
    e.write (buffer.rename κ) = (d.write buffer).rename κ := by
  have hskip (i : Instruction) (kind : Option FixupKind)
      (hkind : kind.map (FixupKind.rename κ) = kind) (buffer : Buffer) :
      Assembly.writePieces [⟨i, kind⟩] (buffer.rename κ) =
        (Assembly.writePieces [⟨i, kind⟩] buffer).rename κ :=
    SameCode.writePieces (by rw [SameCode, map_singleton, Piece.rename, hkind]) buffer
  have hopen (buffer : Buffer) : (buffer.rename κ).openBlock = buffer.openBlock.rename κ := rfl
  have hnext (buffer : Buffer) : (buffer.rename κ).nextBlock = buffer.nextBlock := rfl
  have hmark (buffer : Buffer) (block : Nat) :
      (buffer.rename κ).markElseBody block = (buffer.markElseBody block).rename κ := rfl
  have hclose (buffer : Buffer) (block : Nat) : (buffer.rename κ).closeBlock block
      (buffer.rename κ).cursor = (buffer.closeBlock block buffer.cursor).rename κ := rfl
  induction h generalizing buffer with
  | nil => rfl
  | code hpq _ ih => rw [Draft.write, Draft.write, hpq.writePieces, ih]
  | conditional _ _ _ ihbody ihrest =>
    simp only [Draft.write, hopen, hnext, hskip _ (some (.ifSkip _)) rfl, ihbody, hclose,
      hskip .endIf none rfl, ihrest]
  | choice _ _ _ _ ihbody ihother ihrest =>
    simp only [Draft.write, hopen, hnext, hskip _ (some (.ifSkip _)) rfl, ihbody,
      hskip _ (some (.elseSkip _)) rfl, hmark, ihother, hclose, hskip .endIf none rfl, ihrest]
  | loop _ _ _ ihbody ihrest =>
    simp only [Draft.write, hopen, hnext, hskip _ (some (.whileSkip _)) rfl, ihbody, hclose,
      hskip .endWhile none rfl, ihrest]

/-! ## Steps of lowering -/

/-- The construct with its names renamed. -/
def OpenConstruct.rename (f : String → String) : OpenConstruct → OpenConstruct
  | .loop number test => .loop number (test.rename f)
  | construct => construct

/-- The state of lowering with all names renamed. -/
def Progress.rename (f : String → String) (s : Progress) : Progress :=
  ⟨s.buffer.rename f, s.registers.rename f, s.scope.map (Scope.rename f),
    s.constructs.map (OpenConstruct.rename f)⟩

variable (κ : Renaming)

/-- A step of lowering keeps pace with the step on renamed input. -/
abbrev Follows {α β : Type} (R : α → β → Prop) (x : Lowering α) (y : Lowering β) : Prop :=
  SideBySide True (Progress.rename κ) R x y

variable {κ}

/-- A request keeps pace as a step of lowering. -/
theorem follows_allocate {α β : Type} {R : α → β → Prop} {x : Allocation α} {y : Allocation β}
    (h : Keeps κ True R x y) : Follows κ R (allocate x) (allocate y) := by
  intro s
  refine (h s.registers).map ?_
  rintro ⟨a, m⟩ ⟨b, _⟩ ⟨hab, rfl⟩
  exact ⟨hab, rfl⟩

theorem follows_onBuffer {f g : Buffer → Buffer}
    (h : ∀ buffer, g (buffer.rename κ) = (f buffer).rename κ) :
    Follows κ Eq (onBuffer f) (onBuffer g) :=
  .modify fun s => by
    unfold Progress.rename
    rw [h]

theorem follows_onRegisters {f : RegisterMap → RegisterMap}
    (h : ∀ m : RegisterMap, f (m.rename κ) = (f m).rename κ) :
    Follows κ Eq (onRegisters f) (onRegisters f) :=
  .modify fun s => by
    unfold Progress.rename
    rw [h]

theorem follows_position : Follows κ Eq position position :=
  SideBySide.get.bind fun s t hst => .pure (by rw [hst]; rfl)

theorem follows_emit (i : Instruction) : Follows κ Eq (emit i) (emit i) :=
  follows_onBuffer fun buffer => buffer.emit_rename κ i

/-! ## Bodies -/

variable (table : FunctionTable)

/-- **A renamed body is lowered alike.** -/
theorem follows_lowerBody (body : Body) :
    Follows κ Eq (lowerBody table body.flatten)
      (lowerBody (table.rename κ) (body.flatten.map (·.rename κ))) := by
  intro s
  change Parallel _ (lowerBody _ _ (.of s.buffer ⟨s.registers, s.scope⟩ s.constructs))
    (lowerBody _ _ (.of (s.buffer.rename κ) (Bindings.rename κ ⟨s.registers, s.scope⟩) _))
  rw [← Body.flatten_rename, lowerBody_flatten, lowerBody_flatten]
  refine (keepsIn_draft (renamedRelation table) rfl body _).map ?_
  rintro ⟨d, b⟩ ⟨e, _⟩ ⟨hde, rfl⟩
  refine ⟨rfl, ?_⟩
  dsimp only
  rw [hde.write_rename]
  rfl

/-- **The top-level code keeps pace with itself under other names.** -/
theorem follows_lowerMain (body : Body) :
    Follows κ Eq (lowerMain table body.flatten)
      (lowerMain (table.rename κ) (body.flatten.map (·.rename κ))) :=
  (follows_lowerBody table body).bind_same fun _ => follows_emit _

/-- Renaming keeps a final return. -/
theorem endsInReturn_rename (f : String → String) (body : List Instr) :
    endsInReturn (body.map (·.rename f)) = endsInReturn body := by
  unfold endsInReturn
  rw [List.getLast?_map]
  cases body.getLast? with
  | none => rfl
  | some i => cases i <;> rfl

theorem follows_defineLabel (name : String) :
    Follows κ Eq (defineLabel name) (defineLabel (κ name)) := by
  intro s
  have hlabel : (s.rename κ).buffer.labels.lookup (κ name) = s.buffer.labels.lookup name := by
    unfold Progress.rename Buffer.rename
    rw [κ.lookup_map, Option.map_id_fun]
    rfl
  unfold defineLabel Buffer.defineLabel
  dsimp only
  rw [hlabel]
  split
  · exact .both _ _
  · refine .ok ⟨rfl, ?_⟩
    unfold Progress.rename Buffer.rename
    dsimp only
    rw [Buffer.setLabel_rename]

theorem follows_setScope (scope : Option Scope) :
    Follows κ Eq (modify fun s => { s with scope })
      (modify fun s => { s with scope := scope.map (Scope.rename κ) }) :=
  .modify fun _ => rfl

/-- **A renamed function is lowered alike.** -/
theorem follows_lowerFunction {f : Function} {body : Body} (hbody : f.body = body.flatten) :
    Follows κ Eq (lowerFunction table f) (lowerFunction (table.rename κ) (f.rename κ)) := by
  have hreserve : Follows κ Eq (onRegisters RegisterMap.reserveTouched)
      (onRegisters RegisterMap.reserveTouched) :=
    follows_onRegisters fun m => m.reserveTouched_rename κ
  have hleave := (follows_setScope (κ := κ) none).bind_same fun _ => hreserve
  refine (follows_onRegisters fun m => m.resetTouched_rename κ).bind_same fun _ =>
    (follows_defineLabel f.name).bind_same fun _ =>
      (follows_setScope (some ⟨f.name, f.params⟩)).bind_same fun _ => ?_
  unfold Function.rename
  rw [hbody]
  refine (follows_lowerBody table body).bind_same fun _ => ?_
  rw [endsInReturn_rename]
  split
  · exact (follows_emit _).bind_same fun _ => hleave
  · exact hleave

end Assembly

end ImpMachine
