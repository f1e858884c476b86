import ImpMachine.Assembly
import ImpMachine.Proofs.BodyShape

/-!
# The two passes agree

The first pass lowers with no function placed, the second with all of them. They differ in the
bytes of calls only: from the same registers both take the same registers and make code of the same
length, and what stops either of them is a fault of the program. So a body is as long as it was
measured (`measured_draft`, `measured_routine`, `measured_mainDraft`).
-/

namespace ImpMachine.Assembly

open Linear

/-! ## Whole programs -/

section Drafts

variable (table : FunctionTable)

/-- The draft of the top-level code, which stops the machine at its end. -/
def mainDraft (body : Body) : Drafting Draft := do
  let d ← body.draft table
  return d.append (.code (plain [.halt]) .nil)

variable {table} in
/-- The top-level code has a stop at its end. -/
theorem mainDraft_eq_ok {body : Body} {b b' : Bindings} {main : Draft}
    (h : mainDraft table body b = .ok (main, b')) :
    ∃ d, body.draft table b = .ok (d, b') ∧ main = d.append (.code (plain [.halt]) .nil) := by
  obtain ⟨d, _, hd, ⟨⟩⟩ := run_bind_eq_ok.1 h
  exact ⟨d, hd, rfl⟩

/-- The shape of code with a stop at its end. -/
theorem Draft.HasShape.append_halt {d : Draft} {s : Shape} (h : d.HasShape s) :
    (d.append (.code (plain [.halt]) .nil)).HasShape (s.append (.plain .halt trivial .nil)) := by
  have hhalt : (Shape.plain .halt trivial .nil).Fits := trivial
  have hshape := h.append (.code hhalt .nil)
  rwa [Shape.append_nil] at hshape

/-- One draft for several, in order. -/
def Draft.join : List Draft → Draft
  | [] => .nil
  | d :: ds => d.append (join ds)

/-- The drafts of functions, in order. -/
def draftAll : List Routine → Drafting (List Draft)
  | [] => return []
  | r :: rs => do
    let d ← r.draft table
    return d :: (← draftAll rs)

end Drafts

/-! ## Sizes -/

/-- The pieces have the same number of bytes. -/
def SameSize (p q : List Piece) : Prop := (pieceBytes p).length = (pieceBytes q).length

/-- A call has two bytes, whether its address is known or not. -/
theorem sizesRelation (table : FunctionTable) (scope : Option Scope) :
    CodeRelation sameNames False ⟨table, scope⟩
      ⟨⟨table.signatures, []⟩, scope.map (Scope.rename sameNames)⟩ fun _ => SameSize where
  scope_eq := rfl
  signatures_eq := (Signatures.rename_id table.signatures).symm
  append hp hq := by
    unfold SameSize at *
    rw [pieceBytes_append, pieceBytes_append, List.length_append, List.length_append, hp, hq]
  shaped _ := rfl
  call {callee _} _ _ _ hpiece := by
    refine ⟨⟨.call 0, some (.call callee)⟩, rfl, ?_⟩
    unfold callPiece at hpiece
    split at hpiece
    · cases hpiece
      rfl
    · split at hpiece
      · cases hpiece
      · cases hpiece
        rfl
  far _ h := h.elim

/-! ## Bodies -/

theorem Draft.size_append (d e : Draft) : (d.append e).size = d.size + e.size := by
  induction d with
  | nil => simp [append, size]
  | code pieces rest ih => simp only [append, size, ih]; omega
  | conditional test body rest _ ih | loop test body rest _ ih
  | choice test body other rest _ _ ih =>
    simp only [append, size, ih]
    omega

theorem Draft.size_eq_of_draftsAlike {s : List CallSite} {d e : Draft}
    (h : DraftsAlike (fun _ => SameSize) s d e) : d.size = e.size := by
  unfold SameSize at h
  induction h with
  | nil => rfl
  | code hpq _ ih => rw [size, size, hpq, ih]
  | conditional _ _ _ ihbody ihrest | loop _ _ _ ihbody ihrest => rw [size, size, ihbody, ihrest]
  | choice _ _ _ _ ihbody ihother ihrest => rw [size, size, ihbody, ihother, ihrest]

variable (table : FunctionTable)

/-- **Both passes draft a body alike.** -/
theorem measured_draft (body : Body) :
    SideBySide False id (fun d e => d.size = e.size) (body.draft table)
      (body.draft ⟨table.signatures, []⟩) := by
  have hrename : Bindings.rename sameNames = id := funext Bindings.rename_id
  have hdraft := (keepsIn_draft (sizesRelation table) rfl body).mono
    fun _ _ => Draft.size_eq_of_draftsAlike
  rwa [hrename, sameNames_eq, Body.rename_id] at hdraft

/-- The first pass drafts a function with calls that wait. -/
theorem measured_routine (r : Routine) :
    SideBySide False id (fun d e => d.size = e.size) (r.draft table)
      (r.draft ⟨table.signatures, []⟩) := by
  have hsame {α : Type} {f : Bindings → Bindings} (a : α) :
      SideBySide False id Eq (fun b => .ok (a, f b)) fun b => .ok (a, f b) := fun _ => .ok ⟨rfl, rfl⟩
  refine (hsame ()).bind_same fun _ => (hsame ()).bind_same fun _ =>
    (measured_draft table r.body).bind fun d e hde => (hsame ()).bind_same fun _ =>
      (hsame ()).bind_same fun _ => .pure ?_
  split
  · exact hde
  · rw [Draft.size_append, Draft.size_append, hde]

theorem measured_mainDraft (body : Body) :
    SideBySide False id (fun d e => d.size = e.size) (mainDraft table body)
      (mainDraft ⟨table.signatures, []⟩ body) := by
  refine (measured_draft table body).bind fun d e hde => .pure ?_
  rw [Draft.size_append, Draft.size_append, hde]

end ImpMachine.Assembly
