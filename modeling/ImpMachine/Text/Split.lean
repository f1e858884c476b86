/-!
# Splitting at a separator
-/

namespace ImpMachine.Text

/-- The pieces between the separators, in order. There is always at least one. -/
def splitOn (separator : Char) : List Char → List (List Char)
  | [] => [[]]
  | c :: rest =>
    if c = separator then [] :: splitOn separator rest
    else
      match splitOn separator rest with
      | [] => [[c]]
      | piece :: pieces => (c :: piece) :: pieces

theorem splitOn_ne_nil (separator : Char) (cs : List Char) : splitOn separator cs ≠ [] := by
  unfold splitOn
  split
  · simp
  · split
    · simp
    · split <;> simp

/-- Joining the pieces with the separator gives the text back. -/
theorem intercalate_splitOn (separator : Char) (cs : List Char) :
    [separator].intercalate (splitOn separator cs) = cs := by
  induction cs with
  | nil => rfl
  | cons c rest ih =>
    obtain ⟨piece, pieces, hrest⟩ := List.exists_cons_of_ne_nil (splitOn_ne_nil separator rest)
    rw [hrest] at ih
    unfold splitOn
    split
    · rename_i h
      rw [hrest, h]
      simpa [List.intercalate] using ih
    · rw [hrest]
      cases pieces with
      | nil => simpa [List.intercalate] using ih
      | cons _ _ => simpa [List.intercalate] using ih

/-- A first piece without the separator. -/
theorem splitOn_append_cons {separator : Char} {piece : List Char} (rest : List Char)
    (h : separator ∉ piece) :
    splitOn separator (piece ++ separator :: rest) = piece :: splitOn separator rest := by
  induction piece with
  | nil => simp [splitOn]
  | cons c piece ih =>
    rw [List.mem_cons, not_or] at h
    obtain ⟨hc, hpiece⟩ := h
    rw [List.cons_append, splitOn, if_neg (Ne.symm hc), ih hpiece]

/-- A text without the separator is one piece. -/
theorem splitOn_eq_singleton {separator : Char} {piece : List Char} (h : separator ∉ piece) :
    splitOn separator piece = [piece] := by
  induction piece with
  | nil => rfl
  | cons c piece ih =>
    rw [List.mem_cons, not_or] at h
    obtain ⟨hc, hpiece⟩ := h
    rw [splitOn, if_neg (Ne.symm hc), ih hpiece]

end ImpMachine.Text
