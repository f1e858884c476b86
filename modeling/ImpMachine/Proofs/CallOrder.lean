import ImpMachine.Assembly.Functions
import ImpMachine.Result
import Mathlib.Data.List.Perm.Subperm

/-!
# The order of calls

The search for recursion finishes a function after all that it calls. So the list of finished
functions has every callee behind its callers (`Searched`), and the place of a function in it is a
level that grows along calls (`exists_level_of_checkRecursion`). There are no more levels than
functions, and that bounds the depth of calls.
-/

open List

namespace ImpMachine.Assembly

variable {functions : List Function}

/-! ## One step of the search -/

section Step

variable {name : String} {path done : List String}

/-- A function on the path closes a cycle. -/
theorem visit_of_contains_path (hpath : path.contains name = true) :
    visit functions name path done =
      .error (.recursion (name :: (path.takeWhile (· != name)).reverse ++ [name])) := by
  rw [visit, dif_pos hpath]

theorem visit_of_contains_done (hpath : path.contains name = false)
    (hdone : done.contains name = true) : visit functions name path done = .ok done := by
  rw [visit, dif_neg (ne_true_of_eq_false hpath), if_pos hdone]

/-- A function that is not defined adds nothing. -/
theorem visit_of_find?_eq_none (hpath : path.contains name = false)
    (hfind : find? functions name = none) : visit functions name path done = .ok done := by
  rw [visit, dif_neg (ne_true_of_eq_false hpath)]
  split
  · rfl
  · split
    · rfl
    · rename_i hsome
      rw [hfind] at hsome
      cases hsome

/-- A new function is finished behind all that it calls. -/
theorem visit_of_find?_eq_some {f : Function} (hpath : path.contains name = false)
    (hdone : done.contains name = false) (hfind : find? functions name = some f) :
    visit functions name path done =
      (visitAll functions f.callees (name :: path) done).map (name :: ·) := by
  rw [visit, dif_neg (ne_true_of_eq_false hpath), if_neg (ne_true_of_eq_false hdone)]
  split
  · rename_i hnone
    rw [hfind] at hnone
    cases hnone
  · rename_i hsome
    rw [hfind] at hsome
    cases hsome
    rfl

variable (functions name path done) in
/-- A search meets the path, has nothing to do, or goes on with what the function calls. -/
theorem visit_cases :
    (name ∈ path ∧ visit functions name path done =
        .error (.recursion (name :: (path.takeWhile (· != name)).reverse ++ [name]))) ∨
      ((name ∈ done ∨ find? functions name = none) ∧
        visit functions name path done = .ok done) ∨
      ∃ f, find? functions name = some f ∧ name ∉ path ∧ name ∉ done ∧
        visit functions name path done =
          (visitAll functions f.callees (name :: path) done).map (name :: ·) := by
  cases hpath : path.contains name with
  | true => exact .inl ⟨by simpa using hpath, visit_of_contains_path hpath⟩
  | false =>
    cases hdone : done.contains name with
    | true =>
      exact .inr (.inl ⟨.inl (by simpa using hdone), visit_of_contains_done hpath hdone⟩)
    | false =>
      cases hfind : find? functions name with
      | none => exact .inr (.inl ⟨.inr rfl, visit_of_find?_eq_none hpath hfind⟩)
      | some f =>
        exact .inr (.inr ⟨f, rfl, by simpa using hpath, by simpa using hdone,
          visit_of_find?_eq_some hpath hdone hfind⟩)

end Step

/-! ## Finished functions -/

/-- Every finished function is listed once, and what it calls was finished before it. -/
def Searched (functions : List Function) : List String → Prop
  | [] => True
  | name :: rest => name ∉ rest ∧
    (∃ f, find? functions name = some f ∧
      ∀ c ∈ f.callees, (find? functions c).isSome → c ∈ rest) ∧ Searched functions rest

/-- What a search adds to the finished functions: nothing on the path is among it. -/
structure Visited (functions : List Function) (path done done' : List String) : Prop where
  searched : Searched functions done'
  mono : ∀ x ∈ done, x ∈ done'
  fresh : ∀ x ∈ done', x ∈ done ∨ x ∉ path

mutual

/-- A search that succeeds finishes the function it starts from. -/
theorem visited_of_visit {name : String} {path done done' : List String}
    (h : visit functions name path done = .ok done') (hdone : Searched functions done) :
    Visited functions path done done' ∧ ((find? functions name).isSome → name ∈ done') := by
  rcases visit_cases functions name path done with
    ⟨-, heq⟩ | ⟨hskip, heq⟩ | ⟨f, hfind, hpath, hmem, heq⟩
  · rw [heq] at h
    cases h
  · rw [heq] at h
    cases h
    refine ⟨⟨hdone, fun x hx => hx, fun x hx => .inl hx⟩, fun hsome => hskip.resolve_right ?_⟩
    intro hnone
    simp [hnone] at hsome
  · rw [heq] at h
    obtain ⟨done₁, hcallees, rfl⟩ := map_eq_ok.1 h
    have hless : offPath functions (name :: path) < offPath functions path :=
      offPath_cons_lt hfind (by simpa using hpath)
    obtain ⟨hvisited, hfinished⟩ := visited_of_visitAll hcallees hdone
    -- the function was on the path of the search below it, so it was not finished there
    have hname : name ∉ done₁ := fun hx => by
      rcases hvisited.fresh name hx with hx | hx
      · exact hmem hx
      · exact hx (mem_cons_self ..)
    refine ⟨⟨⟨hname, ⟨f, hfind, hfinished⟩, hvisited.searched⟩,
      fun x hx => mem_cons_of_mem _ (hvisited.mono x hx), fun x hx => ?_⟩,
      fun _ => mem_cons_self ..⟩
    rcases mem_cons.1 hx with rfl | hx
    · exact .inr hpath
    · exact (hvisited.fresh x hx).imp_right fun hx hmem => hx (mem_cons_of_mem _ hmem)
termination_by (offPath functions path, 0)
decreasing_by
  exact Prod.Lex.left _ _ hless

theorem visited_of_visitAll {names path done done' : List String}
    (h : visitAll functions names path done = .ok done') (hdone : Searched functions done) :
    Visited functions path done done' ∧
      ∀ name ∈ names, (find? functions name).isSome → name ∈ done' := by
  cases hnames : names with
  | nil =>
    rw [hnames, visitAll] at h
    cases h
    exact ⟨⟨hdone, fun x hx => hx, fun x hx => .inl hx⟩, by simp⟩
  | cons name rest =>
    rw [hnames, visitAll] at h
    split at h
    · cases h
    · rename_i done₁ hvisit
      obtain ⟨hfirst, hname⟩ := visited_of_visit hvisit hdone
      obtain ⟨hrest, hnames⟩ := visited_of_visitAll h hfirst.searched
      refine ⟨⟨hrest.searched, fun x hx => hrest.mono x (hfirst.mono x hx), fun x hx => ?_⟩, ?_⟩
      · rcases hrest.fresh x hx with hx | hx
        · exact hfirst.fresh x hx
        · exact .inr hx
      · exact forall_mem_cons.2 ⟨fun hsome => hrest.mono _ (hname hsome), hnames⟩
termination_by (offPath functions path, names.length + 1)
decreasing_by
  · exact Prod.Lex.right _ (Nat.succ_pos _)
  · exact Prod.Lex.right _ (by simp [hnames])

end

/-! ## Levels -/

namespace Searched

variable {done : List String}

theorem nodup (h : Searched functions done) : done.Nodup := by
  induction done with
  | nil => exact .nil
  | cons name rest ih => exact nodup_cons.2 ⟨h.1, ih h.2.2⟩

theorem subset_names (h : Searched functions done) : done ⊆ functions.map Function.name := by
  induction done with
  | nil => exact nil_subset _
  | cons name rest ih =>
    obtain ⟨-, ⟨f, hfind, -⟩, hrest⟩ := h
    have hname : f.name = name := by simpa using List.find?_some hfind
    have hmem : name ∈ functions.map Function.name :=
      mem_map.2 ⟨f, mem_of_find?_eq_some hfind, hname⟩
    exact cons_subset.2 ⟨hmem, ih hrest⟩

theorem length_le (h : Searched functions done) : done.length ≤ functions.length := by
  have hle := (List.Nodup.subperm h.nodup h.subset_names).length_le
  rwa [length_map] at hle

/-- Callees stand behind their callers. -/
theorem idxOf_lt_idxOf (h : Searched functions done) {name c : String} {f : Function}
    (hname : name ∈ done) (hfind : find? functions name = some f) (hc : c ∈ f.callees)
    (hsome : (find? functions c).isSome) : c ∈ done ∧ done.idxOf name < done.idxOf c := by
  induction done with
  | nil => cases hname
  | cons first rest ih =>
    obtain ⟨hfirst, ⟨g, hg, hcallees⟩, hrest⟩ := h
    by_cases heq : first = name
    · subst heq
      obtain rfl : g = f := Option.some.inj (hg.symm.trans hfind)
      have hmem := hcallees c hc hsome
      have hne : first ≠ c := fun heq => hfirst (heq ▸ hmem)
      refine ⟨mem_cons_of_mem _ hmem, ?_⟩
      rw [idxOf_cons_self, idxOf_cons_ne _ hne]
      exact Nat.succ_pos _
    · have hmem : name ∈ rest := (mem_cons.1 hname).resolve_left (Ne.symm heq)
      obtain ⟨hcmem, hlt⟩ := ih hrest hmem
      have hne : first ≠ c := fun heq => hfirst (heq ▸ hcmem)
      refine ⟨mem_cons_of_mem _ hcmem, ?_⟩
      rw [idxOf_cons_ne _ heq, idxOf_cons_ne _ hne]
      exact Nat.succ_lt_succ hlt

end Searched

/-- **Levels of functions.** Where no recursion is found, callees are on higher levels. -/
theorem exists_level_of_checkRecursion (h : checkRecursion functions = .ok ()) :
    ∃ level : String → Nat, ∀ name f, find? functions name = some f →
      0 < level name ∧ level name ≤ functions.length ∧
        ∀ c ∈ f.callees, (find? functions c).isSome → level name < level c := by
  unfold checkRecursion at h
  cases hvisit : visitAll functions (functions.map Function.name) [] [] with
  | error e =>
    rw [hvisit] at h
    cases h
  | ok done =>
    obtain ⟨hvisited, hfinished⟩ := visited_of_visitAll hvisit trivial
    have hsearched := hvisited.searched
    -- functions finish after all that they call, and the last to finish stands first
    refine ⟨fun name => done.idxOf name + 1, fun name f hfind => ?_⟩
    have hname : f.name = name := by simpa using List.find?_some hfind
    have hmem : name ∈ done := by
      refine hfinished name ?_ (by rw [hfind]; rfl)
      exact mem_map.2 ⟨f, mem_of_find?_eq_some hfind, hname⟩
    refine ⟨Nat.succ_pos _, ?_, fun c hc hsome => ?_⟩
    · exact Nat.le_trans (idxOf_lt_length_of_mem hmem) hsearched.length_le
    · exact Nat.succ_lt_succ (hsearched.idxOf_lt_idxOf hmem hfind hc hsome).2

end ImpMachine.Assembly
