/-!
# Symbol tables

The entry addresses of a program's functions, ordered by name. The order is part of the type, so a
table has one form only.
-/

namespace ImpMachine

/-- Function names and their addresses, in ascending order of the names. -/
structure Symbols where
  entries : List (String × UInt8)
  ordered : entries.Pairwise fun a b => a.1 < b.1

namespace Symbols

/-- The table without entries. -/
def empty : Symbols := ⟨[], .nil⟩

/-- Puts an entry in its place, instead of an earlier one of that name. -/
def insertInto (name : String) (addr : UInt8) :
    List (String × UInt8) → List (String × UInt8)
  | [] => [(name, addr)]
  | entry :: rest =>
    if name < entry.1 then (name, addr) :: entry :: rest
    else if name = entry.1 then (name, addr) :: rest
    else entry :: insertInto name addr rest

theorem mem_insertInto {name : String} {addr : UInt8} {entries : List (String × UInt8)}
    {x : String × UInt8} (h : x ∈ insertInto name addr entries) :
    x = (name, addr) ∨ x ∈ entries := by
  induction entries with
  | nil => simpa [insertInto] using h
  | cons entry rest ih =>
    unfold insertInto at h
    split at h
    · simpa using h
    · split at h
      · rcases List.mem_cons.1 h with rfl | h
        · exact .inl rfl
        · exact .inr (List.mem_cons_of_mem _ h)
      · rcases List.mem_cons.1 h with rfl | h
        · exact .inr (List.mem_cons_self ..)
        · exact (ih h).imp_right (List.mem_cons_of_mem _)

theorem ordered_insertInto {name : String} {addr : UInt8} {entries : List (String × UInt8)}
    (h : entries.Pairwise fun a b => a.1 < b.1) :
    (insertInto name addr entries).Pairwise fun a b => a.1 < b.1 := by
  induction entries with
  | nil => simp [insertInto]
  | cons entry rest ih =>
    obtain ⟨hentry, hrest⟩ := List.pairwise_cons.1 h
    unfold insertInto
    split
    · rename_i hlt
      refine List.pairwise_cons.2 ⟨fun x hx => ?_, h⟩
      rcases List.mem_cons.1 hx with rfl | hx
      · exact hlt
      · exact String.lt_trans hlt (hentry x hx)
    · split
      · rename_i heq
        exact List.pairwise_cons.2 ⟨fun x hx => heq ▸ hentry x hx, hrest⟩
      · rename_i hnlt hne
        refine List.pairwise_cons.2 ⟨fun x hx => ?_, ih hrest⟩
        rcases mem_insertInto hx with rfl | hx
        · refine Decidable.byContradiction fun h => hne ?_
          exact String.le_antisymm (String.not_lt.1 h) (String.not_lt.1 hnlt)
        · exact hentry x hx

/-- The table with an entry added, instead of an earlier one of that name. -/
def insert (table : Symbols) (name : String) (addr : UInt8) : Symbols :=
  ⟨insertInto name addr table.entries, ordered_insertInto table.ordered⟩

/-- The first name, in order, whose function starts at the address. -/
def nameAt? (table : Symbols) (addr : Nat) : Option String :=
  (table.entries.find? (·.2.toNat == addr)).map (·.1)

end Symbols

end ImpMachine
