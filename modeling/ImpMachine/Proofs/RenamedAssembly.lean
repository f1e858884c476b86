import ImpMachine.Proofs.Layout
import ImpMachine.Proofs.Listings
import ImpMachine.Proofs.RenamedLowering

/-!
# Assembly under other names

Names matter to assembly up to renaming only: a program whose identifiers are replaced one by one
is assembled if and only if the program is, into the same code and a table of the new names
(`assemble_rename`).

A map of identifiers says nothing about the other texts that hold registers, the qualified names
and the name of the returned value. `spread` extends it to all texts: a text is renamed piece by
piece between its colons, where only the identifiers among the pieces change. Identifiers have no
colons, so different texts stay different and qualification is kept.
-/

namespace ImpMachine

open List

variable {name : String} {separator : Char} {piece : List Char} {table : Symbols} {addr : UInt8}

/-! ## Pieces between separators -/

namespace Text

theorem splitOn_append (separator : Char) (front back : List Char) :
    splitOn separator (front ++ separator :: back) =
      splitOn separator front ++ splitOn separator back := by
  induction front with
  | nil => simp [splitOn]
  | cons c front ih =>
    rw [cons_append, splitOn, splitOn]
    split
    · rw [ih, cons_append]
    · obtain ⟨piece, pieces, hfront⟩ := exists_cons_of_ne_nil (splitOn_ne_nil separator front)
      rw [ih, hfront]
      rfl

theorem separator_notMem_of_mem_splitOn {cs : List Char}
    (h : piece ∈ splitOn separator cs) : separator ∉ piece := by
  induction cs generalizing piece with
  | nil =>
    rw [splitOn, mem_singleton] at h
    rw [h]
    exact not_mem_nil
  | cons c cs ih =>
    obtain ⟨first, pieces, hcs⟩ := exists_cons_of_ne_nil (splitOn_ne_nil separator cs)
    rw [splitOn, hcs] at h
    rw [hcs] at ih
    split at h
    · rcases mem_cons.1 h with rfl | h
      · exact not_mem_nil
      · exact ih h
    · rename_i hc
      rcases mem_cons.1 h with rfl | h
      · have hfirst := ih (mem_cons_self ..)
        simpa [hfirst] using Ne.symm hc
      · exact ih (mem_cons_of_mem _ h)

/-- Joined pieces are split again. -/
theorem splitOn_intercalate {pieces : List (List Char)} (hne : pieces ≠ [])
    (h : ∀ piece ∈ pieces, separator ∉ piece) :
    splitOn separator ([separator].intercalate pieces) = pieces := by
  induction pieces with
  | nil => exact absurd rfl hne
  | cons piece pieces ih =>
    obtain ⟨hpiece, hpieces⟩ := forall_mem_cons.1 h
    cases pieces with
    | nil =>
      have hjoined : [separator].intercalate [piece] = piece := by simp [List.intercalate]
      rw [hjoined]
      exact splitOn_eq_singleton hpiece
    | cons next pieces =>
      have hjoined : [separator].intercalate (piece :: next :: pieces) =
          piece ++ separator :: [separator].intercalate (next :: pieces) := by
        simp [List.intercalate]
      rw [hjoined, splitOn_append_cons _ hpiece, ih (cons_ne_nil _ _) hpieces]

end Text

/-! ## Identifiers and other texts -/

namespace Assembly

open Linear Lexer

/-- A piece of a text, renamed if it is an identifier. -/
def respell (f : String → String) (piece : List Char) : List Char :=
  if IsIdentifier (String.ofList piece) then (f (String.ofList piece)).toList else piece

/-- A text whose pieces between colons are renamed. -/
def spread (f : String → String) (text : String) : String :=
  String.ofList ([':'].intercalate ((Text.splitOn ':' text.toList).map (respell f)))

theorem colon_notMem_of_isIdentifier (h : IsIdentifier name) : ':' ∉ name.toList :=
  notMem_of_isWord h.1 (by decide)

theorem respell_of_isIdentifier (f : String → String) (h : IsIdentifier name) :
    respell f name.toList = (f name).toList := by
  unfold respell
  rw [String.ofList_toList, if_pos h]

theorem spread_of_isIdentifier (f : String → String) (h : IsIdentifier name) :
    spread f name = f name := by
  unfold spread
  rw [Text.splitOn_eq_singleton (colon_notMem_of_isIdentifier h), map_singleton,
    respell_of_isIdentifier f h]
  simp [List.intercalate]

theorem spread_returnName (f : String → String) : spread f returnName = returnName := by
  have hname : respell f returnName.toList = returnName.toList := by
    unfold respell
    rw [String.ofList_toList, if_neg (by decide)]
  have hpieces : Text.splitOn ':' returnName.toList = [returnName.toList] :=
    Text.splitOn_eq_singleton (by decide)
  unfold spread
  rw [hpieces, map_singleton, hname]
  simp [List.intercalate]

section Spread

variable {f : String → String} (hnames : ∀ x, IsIdentifier x → IsIdentifier (f x))
  (hdistinct : ∀ x y, IsIdentifier x → IsIdentifier y → f x = f y → x = y)

include hnames

theorem colon_notMem_respell (h : ':' ∉ piece) : ':' ∉ respell f piece := by
  unfold respell
  split
  · rename_i hpiece
    exact colon_notMem_of_isIdentifier (hnames _ hpiece)
  · exact h

theorem splitOn_spread (text : String) :
    Text.splitOn ':' (spread f text).toList = (Text.splitOn ':' text.toList).map (respell f) := by
  have hne : (Text.splitOn ':' text.toList).map (respell f) ≠ [] := by
    simpa using Text.splitOn_ne_nil ':' text.toList
  unfold spread
  rw [String.toList_ofList, Text.splitOn_intercalate hne]
  intro piece hpiece
  obtain ⟨old, hold, rfl⟩ := mem_map.1 hpiece
  exact colon_notMem_respell hnames (Text.separator_notMem_of_mem_splitOn hold)

/-- Renaming goes through the names of a function's variables. -/
theorem spread_qualified (function name : String) :
    spread f (qualified function name) = qualified (spread f function) (spread f name) := by
  have hempty : respell f [] = [] := if_neg (by decide)
  have hpieces (a b : String) : Text.splitOn ':' (qualified a b).toList =
      Text.splitOn ':' a.toList ++ [] :: Text.splitOn ':' b.toList := by
    unfold qualified
    rw [String.toList_append, String.toList_append, append_assoc]
    change Text.splitOn ':' (a.toList ++ ':' :: ([] ++ ':' :: b.toList)) = _
    rw [Text.splitOn_append, Text.splitOn_append]
    rfl
  -- both sides have the same pieces
  have hsame : Text.splitOn ':' (spread f (qualified function name)).toList =
      Text.splitOn ':' (qualified (spread f function) (spread f name)).toList := by
    rw [splitOn_spread hnames, hpieces, hpieces, splitOn_spread hnames, splitOn_spread hnames,
      map_append, map_cons, hempty]
  have hjoined := congrArg [':'].intercalate hsame
  rw [Text.intercalate_splitOn, Text.intercalate_splitOn] at hjoined
  exact String.toList_inj.1 hjoined

include hdistinct

theorem respell_injective {a b : List Char} (h : respell f a = respell f b) : a = b := by
  have himage {a b : List Char} (ha : IsIdentifier (String.ofList a))
      (hb : ¬IsIdentifier (String.ofList b)) : respell f a ≠ respell f b := by
    unfold respell
    rw [if_pos ha, if_neg hb]
    intro heq
    refine hb ?_
    rw [← heq, String.ofList_toList]
    exact hnames _ ha
  by_cases ha : IsIdentifier (String.ofList a) <;> by_cases hb : IsIdentifier (String.ofList b)
  · unfold respell at h
    rw [if_pos ha, if_pos hb] at h
    exact String.ofList_injective (hdistinct _ _ ha hb (String.toList_inj.1 h))
  · exact absurd h (himage ha hb)
  · exact absurd h.symm (himage hb ha)
  · unfold respell at h
    rwa [if_neg ha, if_neg hb] at h

/-- Different texts stay different. -/
theorem spread_injective (a b : String) (h : spread f a = spread f b) : a = b := by
  have hpieces : (Text.splitOn ':' a.toList).map (respell f) =
      (Text.splitOn ':' b.toList).map (respell f) := by
    rw [← splitOn_spread hnames, ← splitOn_spread hnames, h]
  have hinjective : Function.Injective (respell f) := fun x y hxy =>
    respell_injective hnames hdistinct hxy
  have hjoined := congrArg [':'].intercalate (map_injective_iff.2 hinjective hpieces)
  rw [Text.intercalate_splitOn, Text.intercalate_splitOn] at hjoined
  exact String.toList_inj.1 hjoined

end Spread

/-- A map that keeps identifiers apart, as a renaming of all texts. -/
def Renaming.ofIdentifiers (f : String → String)
    (hnames : ∀ x, IsIdentifier x → IsIdentifier (f x))
    (hdistinct : ∀ x y, IsIdentifier x → IsIdentifier y → f x = f y → x = y) : Renaming where
  apply := spread f
  injective := spread_injective hnames hdistinct
  apply_qualified := spread_qualified hnames
  apply_returnName := spread_returnName f

/-! ## Symbol tables -/

end Assembly

namespace Symbols

/-- An entry is the one added, or an earlier one of another name. -/
theorem mem_insert_iff {x : String × UInt8} :
    x ∈ (table.insert name addr).entries ↔ x = (name, addr) ∨ x.1 ≠ name ∧ x ∈ table.entries := by
  obtain ⟨entries, hordered⟩ := table
  change x ∈ insertInto name addr entries ↔ _ ∨ _ ∧ x ∈ entries
  induction entries with
  | nil => simp [insertInto]
  | cons entry rest ih =>
    obtain ⟨hfirst, hrest⟩ := pairwise_cons.1 hordered
    have hlater {x : String × UInt8} (hx : x ∈ rest) : x.1 ≠ entry.1 := fun heq =>
      String.lt_irrefl entry.1 (heq ▸ hfirst x hx)
    unfold insertInto
    split
    · rename_i hlt
      -- the name comes before all others
      have hother : x ∈ entry :: rest → x.1 ≠ name := by
        rintro hx rfl
        rcases mem_cons.1 hx with rfl | hx
        · exact String.lt_irrefl _ hlt
        · exact String.lt_irrefl _ (String.lt_trans hlt (hfirst x hx))
      rw [mem_cons]
      exact or_congr_right ⟨fun hx => ⟨hother hx, hx⟩, And.right⟩
    · split
      · rename_i hname
        rw [mem_cons, mem_cons, hname]
        refine or_congr_right ⟨fun hx => ⟨hlater hx, .inr hx⟩, fun hx => ?_⟩
        exact hx.2.resolve_left fun heq => hx.1 (congrArg Prod.fst heq)
      · rename_i hname
        rw [mem_cons, mem_cons, ih hrest]
        constructor
        · rintro (rfl | rfl | ⟨hne, hx⟩)
          · exact .inr ⟨Ne.symm hname, .inl rfl⟩
          · exact .inl rfl
          · exact .inr ⟨hne, .inr hx⟩
        · rintro (rfl | ⟨hne, rfl | hx⟩)
          · exact .inr (.inl rfl)
          · exact .inl rfl
          · exact .inr (.inr ⟨hne, hx⟩)

/-- The second table has the entries of the first under new names. -/
def IsRenamed (f : String → String) (table table' : Symbols) : Prop :=
  ∀ name addr, (name, addr) ∈ table'.entries ↔
    ∃ old, f old = name ∧ (old, addr) ∈ table.entries

end Symbols

namespace Assembly

open Linear Lexer

variable (κ : Renaming)

theorem isRenamed_insert {table' : Symbols} (h : table.IsRenamed κ table') (name : String)
    (addr : UInt8) : (table.insert name addr).IsRenamed κ (table'.insert (κ name) addr) := by
  intro x a
  rw [Symbols.mem_insert_iff, h x a, Prod.mk.injEq]
  constructor
  · rintro (⟨rfl, rfl⟩ | ⟨hne, old, rfl, hold⟩)
    · exact ⟨name, rfl, Symbols.mem_insert_iff.2 (.inl rfl)⟩
    · refine ⟨old, rfl, Symbols.mem_insert_iff.2 (.inr ⟨fun heq => hne ?_, hold⟩)⟩
      exact congrArg κ heq
  · rintro ⟨old, rfl, hold⟩
    rcases Symbols.mem_insert_iff.1 hold with heq | ⟨hne, hold⟩
    · cases heq
      exact .inl ⟨rfl, rfl⟩
    · exact .inr ⟨fun heq => hne (κ.apply_inj.1 heq), old, rfl, hold⟩

theorem parallel_foldlM {α β γ δ : Type} {R : α → β → Prop} {f : α → γ → Except AssembleError α}
    {g : β → δ → Except AssembleError β} {h : γ → δ}
    (hstep : ∀ a b x, R a b → Parallel R (f a x) (g b (h x))) (l : List γ) {a : α} {b : β}
    (hab : R a b) : Parallel R (l.foldlM f a) ((l.map h).foldlM g b) := by
  induction l generalizing a b with
  | nil => exact .ok hab
  | cons x l ih =>
    rw [map_cons, foldlM_cons, foldlM_cons]
    exact (hstep a b x hab).bind fun _ _ hab => ih hab

/-- The symbol table of renamed labels has renamed entries. -/
theorem parallel_symbolTable (labels : List (String × Nat)) :
    Parallel (fun a b => a.IsRenamed κ b) (symbolTable labels)
      (symbolTable (labels.map (Prod.map κ id))) := by
  have hempty : Symbols.empty.IsRenamed κ .empty := by
    intro name addr
    simp [Symbols.empty]
  refine parallel_foldlM (fun a b label hab => ?_) labels hempty
  change Parallel _ (if maxAddress < label.2 then _ else _) (if maxAddress < label.2 then _ else _)
  split
  · exact .both _ _
  · exact .ok (isRenamed_insert κ hab _ _)

/-! ## Filling in -/

end Assembly

namespace Buffer

variable (κ : Assembly.Renaming)

open Assembly

/-- Filling in an operand byte. -/
theorem parallel_fill (buffer : Buffer) (fixup : Fixup) :
    Parallel (fun a b => b = a.rename κ) (buffer.fill fixup)
      ((buffer.rename κ).fill { fixup with kind := fixup.kind.rename κ }) := by
  have hvalue : Parallel Eq (buffer.fixupValue fixup)
      ((buffer.rename κ).fixupValue { fixup with kind := fixup.kind.rename κ }) := by
    have hskip (target : Option Nat) (kind : FixupKind) : Parallel Eq (skipValue fixup target)
        (skipValue { fixup with kind } target) := by
      unfold skipValue
      cases target with
      | none => exact .both _ _
      | some target =>
        dsimp only
        split
        · exact .both _ _
        · split
          · exact .both _ _
          · exact .ok rfl
    obtain ⟨kind, position, base⟩ := fixup
    cases kind with
    | call label =>
      have hlabel : (buffer.rename κ).labels.lookup (κ label) = buffer.labels.lookup label := by
        unfold rename
        rw [κ.lookup_map, Option.map_id_fun]
        rfl
      unfold fixupValue FixupKind.rename
      dsimp only
      rw [hlabel]
      cases buffer.labels.lookup label with
      | none => exact .both _ _
      | some address =>
        dsimp only
        split
        · exact .both _ _
        · exact .ok rfl
    | ifSkip block => exact hskip _ _
    | elseSkip block => exact hskip _ _
    | whileSkip block => exact hskip _ _
  refine hvalue.bind fun value _ heq => ?_
  subst heq
  change Parallel _ _ (if fixup.position < buffer.code.size then _ else _)
  split
  · exact .ok rfl
  · exact .both _ _

end Buffer

namespace Assembly

open Linear Lexer

variable {κ : Renaming}

/-- Operand bytes are filled alike under new labels. -/
theorem parallel_fillAll (buffer : Buffer) (fixups : List Fixup) :
    Parallel (fun a b => b = a.rename κ)
      ((buffer.fillAll fixups).2.map fun _ => (buffer.fillAll fixups).1)
      (((buffer.rename κ).fillAll (fixups.map fun x => { x with kind := x.kind.rename κ })).2.map
        fun _ => ((buffer.rename κ).fillAll
          (fixups.map fun x => { x with kind := x.kind.rename κ })).1) := by
  induction fixups generalizing buffer with
  | nil => exact .ok rfl
  | cons fixup fixups ih =>
    have hfirst := buffer.parallel_fill κ fixup
    rw [map_cons, Buffer.fillAll, Buffer.fillAll]
    generalize buffer.fill fixup = x at hfirst
    generalize (buffer.rename κ).fill { fixup with kind := fixup.kind.rename κ } = y at hfirst
    cases hfirst with
    | error _ hy =>
      obtain ⟨e', rfl⟩ := hy trivial
      exact .both _ e'
    | ok h =>
      rw [h]
      exact ih _

theorem follows_resolveAll : Follows κ Eq resolveAll resolveAll := by
  have hresolve (s : Progress) : resolveAll s =
      (s.buffer.resolve.2.map fun _ => s.buffer.resolve.1).map
        fun buffer => ((), { s with buffer }) := by
    unfold resolveAll
    dsimp only
    cases s.buffer.resolve.2 <;> rfl
  intro s
  have hfill := parallel_fillAll (κ := κ) s.buffer s.buffer.fixups.toList
  rw [← Array.toList_map] at hfill
  rw [hresolve, hresolve]
  exact hfill.map fun a b hab => ⟨rfl, by rw [hab]; rfl⟩

/-! ## The two passes -/

theorem follows_forM {α β : Type} {f : α → Lowering Unit} {g : β → Lowering Unit} {h : α → β}
    {l : List α} (hstep : ∀ a ∈ l, Follows κ Eq (f a) (g (h a))) :
    Follows κ Eq (l.forM f) ((l.map h).forM g) := by
  induction l with
  | nil => exact .pure rfl
  | cons a l ih =>
    obtain ⟨ha, hl⟩ := forall_mem_cons.1 hstep
    exact ha.bind_same fun _ => ih hl

theorem follows_mapM {α β γ : Type} {f : α → Lowering γ} {g : β → Lowering γ} {h : α → β}
    {l : List α} (hstep : ∀ a ∈ l, Follows κ Eq (f a) (g (h a))) :
    Follows κ Eq (l.mapM f) ((l.map h).mapM g) := by
  induction l with
  | nil => exact .pure rfl
  | cons a l ih =>
    obtain ⟨ha, hl⟩ := forall_mem_cons.1 hstep
    rw [map_cons, mapM_cons, mapM_cons]
    exact ha.bind_same fun _ => (ih hl).bind_same fun _ => .pure rfl

theorem follows_bindParameters (functions : List Function) :
    Follows κ Eq (bindParameters functions) (bindParameters (functions.map (·.rename κ))) := by
  refine SideBySide.bind_same (follows_forM fun f _ => follows_forM fun param _ => ?_) fun _ => ?_
  · exact (follows_allocate (keeps_bindParameter κ f.name param)).bind_same fun _ => .pure rfl
  rw [isEmpty_map]
  split
  · exact (follows_allocate (keeps_bindReturn κ)).bind_same fun _ => .pure rfl
  · exact .pure rfl

/-- The parts are written-out trees. -/
structure Parts.AreTrees (parts : Parts) (body : Body) : Prop where
  main : parts.main = body.flatten
  functions : ∀ f ∈ parts.functions, ∃ body : Body, f.body = body.flatten

/-- The parts of a tree are written-out trees. -/
theorem areTrees_split (tree : Nested) : (split tree.flatten).AreTrees tree.body := by
  rw [Nested.split_flatten]
  refine ⟨rfl, fun f hf => ?_⟩
  obtain ⟨r, -, rfl⟩ := mem_map.1 hf
  exact ⟨r.body, rfl⟩

section Passes

variable {parts : Parts} {body : Body} (hparts : parts.AreTrees body) (signatures : Signatures)
include hparts

theorem follows_parts_main (table : FunctionTable) :
    Follows κ Eq (lowerMain table parts.main)
      (lowerMain (table.rename κ) (parts.rename κ).main) := by
  unfold Parts.rename
  rw [hparts.main]
  exact follows_lowerMain table body

/-- **Measuring keeps pace with itself under other names.** -/
theorem follows_measureAll :
    Follows κ Eq (measureAll signatures parts)
      (measureAll (signatures.rename κ) (parts.rename κ)) := by
  refine (follows_bindParameters parts.functions).bind_same fun _ =>
    (follows_mapM fun f hf => ?_).bind_same fun _ => follows_position.bind_same fun _ =>
      (follows_parts_main hparts ⟨signatures, []⟩).bind_same fun _ =>
        follows_position.bind_same fun _ => .pure rfl
  obtain ⟨body, hbody⟩ := hparts.functions f hf
  exact follows_position.bind_same fun _ =>
    (follows_lowerFunction ⟨signatures, []⟩ hbody).bind_same
      fun _ => follows_position.bind_same fun _ => .pure rfl

omit hparts

theorem follows_checkEnd (label label' : String) (expected : Nat) :
    Follows κ Eq (checkEnd label expected) (checkEnd label' expected) := by
  refine follows_position.bind_same fun actual => ?_
  split
  · exact fun _ => .both _ _
  · exact .pure rfl

/-- The code is the same, and the symbols have new names. -/
def ImagesAlike (κ : Renaming) (a b : Image) : Prop :=
  b.code = a.code ∧ a.symbols.IsRenamed κ b.symbols

include hparts in
/-- **The second pass follows the renaming.** -/
theorem follows_placeAll (layout : Layout) :
    Follows κ (ImagesAlike κ) (placeAll signatures parts layout)
      (placeAll (signatures.rename κ) (parts.rename κ) layout) := by
  have hseek (offset : Nat) : Follows κ Eq (onBuffer (·.seek offset)) (onBuffer (·.seek offset)) :=
    follows_onBuffer fun _ => rfl
  have hplace (table : FunctionTable) (f : Function × Span)
      (hf : f ∈ parts.functions.zip layout.spans) : Follows κ Eq (placeFunction table f.1 f.2)
        (placeFunction (table.rename κ) (f.1.rename κ) f.2) := by
    obtain ⟨body, hbody⟩ := hparts.functions f.1 (of_mem_zip hf).1
    exact (hseek _).bind_same fun _ => (follows_lowerFunction table hbody).bind_same fun _ =>
      follows_checkEnd _ _ _
  have hnames : (parts.functions.map (·.rename κ)).map (·.name) =
      (parts.functions.map (·.name)).map κ := by
    rw [map_map, map_map]
    rfl
  have hsymbols (buffer : Buffer) : Follows κ (fun a b => a.IsRenamed κ b)
      (liftM (symbolTable buffer.labels)) (liftM (symbolTable (buffer.rename κ).labels)) :=
    fun s => (parallel_symbolTable κ buffer.labels).bind fun a b hab => .ok ⟨hab, rfl⟩
  have haddresses : ((parts.functions.map (·.name)).map κ).zip (layout.spans.map (·.start)) =
      ((parts.functions.map (·.name)).zip (layout.spans.map (·.start))).map (Prod.map κ id) :=
    zip_map_left ..
  have hpairs : (parts.functions.map (·.rename κ)).zip layout.spans =
      (parts.functions.zip layout.spans).map (Prod.map (·.rename κ) id) :=
    zip_map_left ..
  unfold placeAll Parts.rename
  dsimp only
  rw [hnames, haddresses, hpairs]
  refine (follows_bindParameters parts.functions).bind_same fun _ =>
    (follows_forM (hplace _)).bind_same fun _ =>
      (hseek 0).bind_same fun _ => (follows_parts_main hparts _).bind_same fun _ =>
        (follows_checkEnd _ _ _).bind_same fun _ => follows_resolveAll.bind_same fun _ =>
          SideBySide.get.bind fun s t hst => ?_
  rw [hst]
  exact (hsymbols s.buffer).bind fun a b hab => .pure ⟨rfl, hab⟩

end Passes

theorem start_rename (f : String → String) : Progress.start.rename f = .start := by
  have hregisters : RegisterMap.empty.rename f = .empty := by
    unfold RegisterMap.rename RegisterMap.empty
    rw [Vector.map_replicate]
    rfl
  have hbuffer : Buffer.empty.rename f = .empty := by
    unfold Buffer.rename Buffer.empty
    rw [Array.map_empty]
    rfl
  unfold Progress.rename Progress.start
  rw [hregisters, hbuffer]
  rfl

theorem parallel_run' {α β : Type} {R : α → β → Prop} {x : Lowering α} {y : Lowering β}
    (h : Follows κ R x y) : Parallel R (x.run' .start) (y.run' .start) := by
  have hstart := h .start
  rw [start_rename] at hstart
  exact hstart.map fun a b hab => hab.1

/-- A renamed program is assembled alike. -/
theorem parallel_assemble (code : List Instr) :
    Parallel (ImagesAlike κ) (assemble code) (assemble (code.map (·.rename κ))) := by
  unfold assemble
  rw [checkNesting_rename, split_rename]
  cases hnesting : checkNesting code with
  | error e => exact .both _ _
  | ok _ =>
    obtain ⟨tree, rfl⟩ := exists_nested_of_checkNesting hnesting
    have hparts := areTrees_split tree
    refine (parallel_signatures κ _).bind fun signatures _ hsignatures =>
      (parallel_checkRecursion κ _).bind fun _ _ _ => ?_
    rw [hsignatures]
    refine (parallel_run' (follows_measureAll hparts signatures)).bind fun layout _ hlayout => ?_
    rw [← hlayout]
    exact parallel_run' (follows_placeAll hparts signatures layout)

end Assembly

/-! ## Maps of identifiers -/

namespace Operand

/-- An operand is renamed by what a map does to its names. -/
theorem rename_congr {f g : String → String} (op : Operand)
    (h : ∀ x ∈ op.reads ++ op.calls, f x = g x) : op.rename f = op.rename g := by
  induction op with
  | number | text => rfl
  | var name => exact congrArg Operand.var (h name (mem_singleton_self name))
  | binary op lhs rhs ihlhs ihrhs | logical op lhs rhs ihlhs ihrhs =>
    simp only [reads, calls, mem_append] at h ihlhs ihrhs
    rw [rename, rename, ihlhs fun x hx => h x (hx.imp .inl .inl),
      ihrhs fun x hx => h x (hx.imp .inr .inr)]
  | unary op operand ih => exact congrArg (Operand.unary op) (ih h)
  | call callee args ih =>
    simp only [reads, calls, readsAll_eq_flatMap, callsAll_eq_flatMap, mem_append,
      mem_cons, mem_flatMap] at h ih
    have hargs : args.map (rename f) = args.map (rename g) :=
      map_congr_left fun a ha => ih a ha fun x hx =>
        h x (hx.imp (fun hx => ⟨a, ha, hx⟩) fun hx => .inr ⟨a, ha, hx⟩)
    rw [rename, rename, renameAll_eq_map, renameAll_eq_map, h callee (.inr (.inl rfl)), hargs]

end Operand

namespace Linear

/-- Only the names in an instruction matter. -/
theorem Instr.rename_congr {f g : String → String} {i : Instr} (h : ∀ x ∈ i.names, f x = g x) :
    i.rename f = i.rename g := by
  have hlabels : ∀ x ∈ i.labels, f x = g x := fun x hx => h x (mem_append_left _ hx)
  have hoperands : ∀ op ∈ i.operands, op.rename f = op.rename g := fun op hop =>
    op.rename_congr fun x hx =>
      h x (mem_append_right _ (mem_flatMap.2 ⟨op, hop, hx⟩))
  cases i <;> simp_all [Instr.rename, Instr.labels, Instr.operands]

/-- A function of a program is declared in it. -/
theorem Nested.funcDecl_mem_flatten {n : Nested} {r : Assembly.Routine} (h : r ∈ n.routines) :
    .funcDecl r.name r.params ∈ n.flatten := by
  induction n with
  | nil => cases h
  | plain i hi rest ih => exact mem_cons_of_mem _ (ih h)
  | enclosed opener body rest ihbody ihrest =>
    have hinside (h : r ∈ body.routines ++ rest.routines) :
        .funcDecl r.name r.params ∈ (Nested.enclosed opener body rest).flatten := by
      refine mem_cons_of_mem _ (mem_append.2 ?_)
      exact (mem_append.1 h).imp ihbody fun h => mem_cons_of_mem _ (ihrest h)
    cases opener with
    | function name params =>
      rcases mem_cons.1 h with rfl | h
      · exact mem_cons_self ..
      · exact hinside h
    | macroBody name => exact hinside (mem_append_right _ h)
    | conditional | loop | block => exact hinside h
  | choice cond body other rest ihbody ihother ihrest =>
    simp only [Nested.routines, mem_append] at h
    simp only [Nested.flatten, mem_cons, mem_append]
    rcases h with h | h | h
    · exact .inr (.inl (ihbody h))
    · exact .inr (.inr (.inr (.inl (ihother h))))
    · exact .inr (.inr (.inr (.inr (.inr (ihrest h)))))

end Linear

open Linear Lexer Assembly

/-- The symbols of a program are names that it has. -/
theorem exists_name_of_mem_symbols {code : List Instr} {image : Image}
    (h : assemble code = .ok image) (hmem : (name, addr) ∈ image.symbols.entries) :
    ∃ i ∈ code, name ∈ i.names := by
  obtain ⟨a⟩ := exists_assembled h
  have haddress := (a.symbols_iff name addr).1 hmem
  rw [a.addresses_eq] at haddress
  obtain ⟨r, hr, rfl⟩ := mem_map.1 (of_mem_zip haddress).1
  have hdeclared := Nested.funcDecl_mem_flatten hr
  rw [a.flatten_tree] at hdeclared
  exact ⟨_, hdeclared, mem_append_left _ (mem_cons_self ..)⟩

/-- **Assembly depends on names only up to renaming.** Identifiers replaced by identifiers, no two
by the same one, leave it as it was whether a program is assembled, and its code; the table has the
new names for the old ones. -/
theorem assemble_rename {f : String → String} (hnames : ∀ x, IsIdentifier x → IsIdentifier (f x))
    (hdistinct : ∀ x y, IsIdentifier x → IsIdentifier y → f x = f y → x = y) {code : List Instr}
    (hcode : ∀ i ∈ code, ∀ name ∈ i.names, IsIdentifier name) :
    (∀ image, assemble code = .ok image → ∃ image', assemble (code.map (·.rename f)) = .ok image' ∧
      image'.code = image.code ∧ image.symbols.IsRenamed f image'.symbols) ∧
    ∀ e, assemble code = .error e → ∃ e', assemble (code.map (·.rename f)) = .error e' := by
  let κ : Renaming := .ofIdentifiers f hnames hdistinct
  have hκ {x : String} (hx : IsIdentifier x) : κ x = f x := spread_of_isIdentifier f hx
  have hrenamed : code.map (·.rename f) = code.map (·.rename κ) :=
    map_congr_left fun i hi => Instr.rename_congr fun x hx => (hκ (hcode i hi x hx)).symm
  have hassemble := parallel_assemble (κ := κ) code
  rw [← hrenamed] at hassemble
  generalize assemble (code.map (·.rename f)) = y at hassemble
  constructor
  · intro image himage
    have hsymbol {old : String} {addr : UInt8} (hold : (old, addr) ∈ image.symbols.entries) :
        κ old = f old := by
      obtain ⟨i, hi, hname⟩ := exists_name_of_mem_symbols himage hold
      exact hκ (hcode i hi old hname)
    rw [himage] at hassemble
    cases hassemble with
    | ok hab =>
      refine ⟨_, rfl, hab.1, fun name addr => (hab.2 name addr).trans ?_⟩
      exact exists_congr fun old => and_congr_left fun hold => by rw [hsymbol hold]
  · intro e he
    rw [he] at hassemble
    cases hassemble with
    | error _ hy => exact hy trivial

/-- Two functions, and a variable and a parameter of their names. -/
def twoFunctions : List Instr :=
  [.funcDecl "f" ["g"], .ret (.binary .add (.var "g") (.int 1)), .endFunc,
    .funcDecl "g" [], .ret (.call "f" [.var "f"]), .endFunc,
    .declare "f" (.call "g" []), .print (.var "f")]

/-- The two names changed for each other. -/
def exchange (name : String) : String :=
  if name = "f" then "g" else if name = "g" then "f" else name

theorem exchange_exchange (name : String) : exchange (exchange name) = name := by
  unfold exchange
  by_cases hf : name = "f"
  · simp [hf]
  · by_cases hg : name = "g" <;> simp [hf, hg]

theorem symbols_twoFunctions :
    (assemble twoFunctions).map (·.symbols.entries) = .ok [("f", 9), ("g", 14)] :=
  assemble_of_levels (fun name => if name = "f" then 1 else 0) (by decide) (by decide +kernel)

/-- The entries change places, and the code stays. -/
theorem assemble_rename_twoFunctions :
    ∃ image image', assemble twoFunctions = .ok image ∧
      assemble (twoFunctions.map (·.rename exchange)) = .ok image' ∧ image'.code = image.code ∧
      ("g", 9) ∈ image'.symbols.entries := by
  have hnames (x : String) (hx : IsIdentifier x) : IsIdentifier (exchange x) := by
    unfold exchange
    split
    · decide
    · split
      · decide
      · exact hx
  have hdistinct (x y : String) (_ : IsIdentifier x) (_ : IsIdentifier y)
      (h : exchange x = exchange y) : x = y := by
    rw [← exchange_exchange x, h, exchange_exchange]
  obtain ⟨image, himage, hentries⟩ := map_eq_ok.1 symbols_twoFunctions
  have hcode : ∀ i ∈ twoFunctions, ∀ name ∈ i.names, IsIdentifier name := by decide +kernel
  obtain ⟨hok, -⟩ := assemble_rename hnames hdistinct hcode
  obtain ⟨image', himage', hsame, hsymbols⟩ := hok image himage
  exact ⟨image, image', himage, himage', hsame,
    (hsymbols "g" 9).2 ⟨"f", rfl, by simp [hentries]⟩⟩

end ImpMachine
