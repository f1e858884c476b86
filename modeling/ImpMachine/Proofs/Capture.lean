import ImpMachine.Compilation
import ImpMachine.Proofs.Settling

/-!
# Names that an expansion captures

An expansion names its identifiers anew, `x_1_0` for `x` in the first one. Such a name is an
identifier like any other, and a source may hold it: in `capturing` the expansion of a macro sets a
variable of the program. `preprocess_captures_iff` says when that happens. The source has to have
the name of an identifier of the macro's body, and outside of bodies the same name with the depth
and the number of the expansion behind it. A source without such a pair is safe.
-/

namespace ImpMachine

open Expansion List

/-- The tokens in no macro body. A body begins behind the name of its macro and goes to the next end
of a definition. -/
def outsideBodies : List Token → List Token
  | [] => []
  | [t] => [t]
  | t :: name :: rest =>
    if t.kind = .kwMacro then
      t :: name :: outsideBodies (rest.dropWhile (·.kind != .kwEndMacro))
    else t :: outsideBodies (name :: rest)
termination_by tokens => tokens.length
decreasing_by
  · have := (dropWhile_suffix (l := rest) (·.kind != .kwEndMacro)).length_le
    simp only [length_cons]
    omega
  · simp only [length_cons]
    omega

/-- A text is cut into tokens, which are expanded. -/
theorem preprocess_eq_ok_iff {source : String} {out : List Token} {records : List Record} :
    preprocess source = .ok (out, records) ↔
      ∃ tokens, tokenize source = .ok tokens ∧ (Engine.empty.process tokens).2 = .ok out ∧
        (Engine.empty.process tokens).1.trace.toList = records := by
  unfold preprocess
  cases tokenize source with
  | error e => simp
  | ok tokens =>
    rcases hprocess : Engine.empty.process tokens with ⟨engine, e | out'⟩
    · simp [hprocess]
    · simp [hprocess]

/-- A new engine expands bodies only whose identifiers stand in the source. -/
theorem Engine.Performs.ident_mem {tokens : List Token} {f : Forest} {outcome : Outcome}
    (h : Performs .empty (.process tokens) f outcome) {x : Entry} {level serial : Nat}
    (hx : x ∈ f.entries level serial) {b : Token} (hb : b ∈ x.insertion.body)
    (hkind : b.kind = .ident) : b ∈ tokens := by
  have hP (t : Token) (ht : t.kind = .integer) : t.kind = .ident → t ∈ tokens := by
    simp [ht]
  obtain ⟨-, hinserts, -⟩ := h.outer hP (knows_empty _) fun t ht _ => ht
  exact hinserts level serial x hx b hb hkind

/-- **What an expansion captures.** Among the names that a source has outside of macro bodies, an
expansion makes those that are an identifier of the macro's body followed by the depth and the
number of the expansion, and the source has that identifier too. -/
theorem preprocess_captures_iff {source : String} {out : List Token} {records : List Record}
    (h : preprocess source = .ok (out, records)) :
    ∃ tokens f engine, tokenize source = .ok tokens ∧
      Engine.Performs .empty (.process tokens) f (engine, .ok out) ∧
      records = (f.entries 0 0).map Entry.record ∧
      ∀ x ∈ f.entries 0 0, 1 ≤ x.depth ∧ x.depth ≤ 32 ∧ x.serial < records.length ∧
        ∀ u ∈ outsideBodies tokens, u.kind = .ident →
          ((∃ t ∈ x.insertion.tokens, t.kind = .ident ∧ t.text = u.text) ↔
            ∃ b ∈ tokens, b ∈ x.insertion.body ∧ b.kind = .ident ∧
              u.text = renamedText x.depth x.serial b.text) := by
  obtain ⟨tokens, hlex, hout, rfl⟩ := preprocess_eq_ok_iff.1 h
  obtain ⟨f, hf⟩ := Engine.exists_performs .empty (.process tokens)
  obtain ⟨-, -, htrace, hrenamed, hdepth⟩ := hf.extended
  change (Engine.empty.process tokens).1.trace.toList =
    [] ++ (f.entries 0 0).map Entry.record at htrace
  change ∀ x ∈ f.entries 0 0, _ at hrenamed
  change ∀ x ∈ f.entries 0 0, _ at hdepth
  rw [nil_append] at htrace
  have houtcome : Engine.empty.perform (.process tokens) =
      ((Engine.empty.process tokens).1, .ok out) := Prod.ext rfl hout
  rw [houtcome] at hf
  refine ⟨tokens, f, _, hlex, hf, htrace, fun x hx => ?_⟩
  obtain ⟨k, hk⟩ := List.getElem?_of_mem hx
  refine ⟨Forest.lt_depth_of_mem_entries hx, hdepth x hx, ?_, fun u hu hukind => ⟨?_, ?_⟩⟩
  · rw [Forest.serial_of_getElem?_entries hk, Nat.zero_add, htrace, length_map]
    exact (List.getElem?_eq_some_iff.1 hk).1
  · rintro ⟨t, ht, hkind, htext⟩
    rw [hrenamed x hx, mem_map] at ht
    obtain ⟨b, hb, rfl⟩ := ht
    rw [kind_rename] at hkind
    rw [text_rename hkind] at htext
    exact ⟨b, hf.ident_mem hx hb hkind, hb, hkind, htext.symm⟩
  · rintro ⟨b, -, hb, hkind, htext⟩
    refine ⟨rename x.depth x.serial b, ?_, by rwa [kind_rename], by rw [text_rename hkind, htext]⟩
    rw [hrenamed x hx]
    exact mem_map_of_mem hb

theorem underscore_mem_renamedText (depth serial : Nat) (text : String) :
    '_' ∈ (renamedText depth serial text).toList := by
  simp [toList_renamedText]

/-- The program and the macro have a variable of one name. -/
def sameName : String := "macro m let x = 1; endmacro let x = 5; #m print x;"

def sameNameTokens : List Token :=
  [⟨.kwMacro, "macro", 1, 1, 5⟩, ⟨.ident, "m", 1, 7, 1⟩,
    ⟨.kwLet, "let", 1, 9, 3⟩, ⟨.ident, "x", 1, 13, 1⟩, ⟨.assign, "=", 1, 15, 1⟩,
    ⟨.integer, "1", 1, 17, 1⟩, ⟨.semi, ";", 1, 18, 1⟩, ⟨.kwEndMacro, "endmacro", 1, 20, 8⟩,
    ⟨.kwLet, "let", 1, 29, 3⟩, ⟨.ident, "x", 1, 33, 1⟩, ⟨.assign, "=", 1, 35, 1⟩,
    ⟨.integer, "5", 1, 37, 1⟩, ⟨.semi, ";", 1, 38, 1⟩, ⟨.directive, "#m", 1, 40, 2⟩,
    ⟨.kwPrint, "print", 1, 43, 5⟩, ⟨.ident, "x", 1, 49, 1⟩, ⟨.semi, ";", 1, 50, 1⟩,
    ⟨.eof, "", 1, 51, 0⟩]

theorem tokenize_sameName : tokenize sameName = .ok sameNameTokens := by
  decide +kernel

theorem count_sameName : (preprocess sameName).map (·.2.length) = .ok 1 := by
  have hrun : ((Engine.empty.process sameNameTokens).2.toOption.isSome,
      (Engine.empty.process sameNameTokens).1.trace.toList.length) = (true, 1) :=
    Stage.apply_process 30
      (fun outcome => (outcome.2.toOption.isSome, outcome.1.trace.toList.length))
      (by decide +kernel)
  rw [preprocess, tokenize_sameName]
  dsimp only
  generalize Engine.empty.process sameNameTokens = outcome at hrun ⊢
  obtain ⟨engine, e | out⟩ := outcome
  · cases hrun
  · exact congrArg Except.ok (congrArg Prod.snd hrun)

theorem plain_sameNameTokens : (outsideBodies sameNameTokens).all
    (fun u => u.kind != .ident || u.text.toList.all (· != '_')) = true := by
  decide +kernel

/-- The expansion leaves the program's variable alone. -/
theorem preprocess_captures_iff_sameName :
    ∃ out records, preprocess sameName = .ok (out, records) ∧ records.length = 1 ∧
      ∃ tokens f engine, tokenize sameName = .ok tokens ∧
        Engine.Performs .empty (.process tokens) f (engine, .ok out) ∧
        ∀ x ∈ f.entries 0 0, ∀ t ∈ x.insertion.tokens, t.kind = .ident →
          ∀ u ∈ outsideBodies tokens, u.kind = .ident → t.text ≠ u.text := by
  obtain ⟨⟨out, records⟩, hout, hcount⟩ := map_eq_ok.1 count_sameName
  obtain ⟨tokens, f, engine, hlex, hperforms, -, hcaptures⟩ := preprocess_captures_iff hout
  refine ⟨out, records, hout, hcount, tokens, f, engine, hlex, hperforms, ?_⟩
  intro x hx t ht hkind u hu hukind heq
  obtain ⟨-, -, -, hiff⟩ := hcaptures x hx
  obtain ⟨b, -, -, -, htext⟩ := (hiff u hu hukind).1 ⟨t, ht, hkind, heq⟩
  cases hlex.symm.trans tokenize_sameName
  have hname := all_eq_true.1 plain_sameNameTokens u hu
  simp only [hukind, htext, bne_self_eq_false, Bool.false_or, all_eq_true, bne_iff_ne] at hname
  exact hname '_' (underscore_mem_renamedText _ _ _) rfl

/-! ## A captured variable -/

namespace Engine.Performs

variable {engine engine' : Engine} {f : Forest}

theorem of_plain {ts : List Token} (h : ∀ t ∈ ts, Plain t) (engine : Engine) :
    Performs engine (.process ts) .nil (engine, .ok ts) := by
  induction ts with
  | nil => exact .nil
  | cons t ts ih =>
    obtain ⟨ht, hts⟩ := forall_mem_cons.1 h
    exact .continues (beginning_of_plain ht engine ts) .nil (ih hts)

theorem plain_append {front rest out : List Token} (h : ∀ t ∈ front, Plain t)
    (hrest : Performs engine (.process rest) f (engine', .ok out)) :
    Performs engine (.process (front ++ rest)) f (engine', .ok (front ++ out)) := by
  induction front with
  | nil => exact hrest
  | cons t front ih =>
    obtain ⟨ht, hfront⟩ := forall_mem_cons.1 h
    exact .continues (beginning_of_plain ht engine (front ++ rest)) .nil (ih hfront)

/-- A definition and one use of it. -/
theorem of_use (keyword name close directive : Token) (body front rest : List Token)
    (hkeyword : keyword.kind = .kwMacro) (hname : name.kind = .ident) (hbody : ∀ t ∈ body, Inert t)
    (hclose : close.kind = .kwEndMacro) (hfront : ∀ t ∈ front, Plain t)
    (hdirective : directive.kind = .directive) (huse : directiveName directive = name.text)
    (hrest : ∀ t ∈ rest, Plain t) :
    ∃ engine out, Performs .empty
      (.process (keyword :: name :: (body ++ close :: (front ++ directive :: rest))))
      (.node ⟨directive, body, body.map (rename 1 0)⟩ .nil .nil) (engine, .ok out) := by
  have hread : readDefinition keyword (name :: (body ++ close :: (front ++ directive :: rest))) =
      .ok ⟨name, body, close, front ++ directive :: rest⟩ :=
    readDefinition_eq_ok_iff.2 ⟨rfl, hname, fun t ht => (hbody t ht).2, hclose⟩
  have hdefine : beginning .empty keyword
      (name :: (body ++ close :: (front ++ directive :: rest))) =
        .ok ⟨Engine.empty.define name.text body, .process body,
          fun out => keyword :: name :: out ++ [close], front ++ directive :: rest⟩ := by
    simp only [beginning, hkeyword, hread]
    rfl
  have hbegin : beginning (Engine.empty.define name.text body) directive rest =
      .ok ⟨Engine.empty.define name.text body, .expand directive, fun out => out, rest⟩ := by
    simp only [beginning, hdirective]
  have hbody? : (Engine.empty.define name.text body).body? (directiveName directive) =
      some body := by
    simp [huse, body?, Engine.define]
  have hinsertion : ∀ t ∈ (Engine.empty.define name.text body).insertion body, Plain t := by
    intro t ht
    obtain ⟨u, hu, rfl⟩ := mem_map.1 ht
    simpa only [Plain, kind_rename] using (hbody u hu).1
  have hexpand := Performs.expand hbody? (show 0 < maxExpansionDepth by decide)
    (.of_plain hinsertion _)
  have huses := Performs.continues hbegin hexpand (.of_plain hrest _)
  exact ⟨_, _, .continues hdefine (.of_plain (fun t ht => (hbody t ht).1) _)
    (.plain_append hfront huses)⟩

end Engine.Performs

/-- The program sets `x_1_0`, and then expands a macro that sets `x`. -/
def capturing : String :=
  "macro m let x = 1; endmacro let x_1_0 = 5; #m print x_1_0;"

theorem tokenize_capturing : tokenize capturing =
    .ok (⟨.kwMacro, "macro", 1, 1, 5⟩ :: ⟨.ident, "m", 1, 7, 1⟩ ::
      ([⟨.kwLet, "let", 1, 9, 3⟩, ⟨.ident, "x", 1, 13, 1⟩, ⟨.assign, "=", 1, 15, 1⟩,
          ⟨.integer, "1", 1, 17, 1⟩, ⟨.semi, ";", 1, 18, 1⟩] ++
        ⟨.kwEndMacro, "endmacro", 1, 20, 8⟩ ::
          ([⟨.kwLet, "let", 1, 29, 3⟩, ⟨.ident, "x_1_0", 1, 33, 5⟩, ⟨.assign, "=", 1, 39, 1⟩,
              ⟨.integer, "5", 1, 41, 1⟩, ⟨.semi, ";", 1, 42, 1⟩] ++
            ⟨.directive, "#m", 1, 44, 2⟩ ::
              [⟨.kwPrint, "print", 1, 47, 5⟩, ⟨.ident, "x_1_0", 1, 53, 5⟩,
                ⟨.semi, ";", 1, 58, 1⟩, ⟨.eof, "", 1, 59, 0⟩]))) := by
  decide +kernel

/-- **An expansion captures a variable of the program.** -/
theorem capturing_sets_variable :
    ∃ tokens f engine out, tokenize capturing = .ok tokens ∧
      Engine.Performs .empty (.process tokens) f (engine, .ok out) ∧
      ∃ x ∈ f.entries 0 0, ∃ t ∈ x.insertion.tokens, ∃ u ∈ outsideBodies tokens,
        t.kind = .ident ∧ u.kind = .ident ∧ t.text = u.text := by
  obtain ⟨engine, out, hperforms⟩ := Engine.Performs.of_use ⟨.kwMacro, "macro", 1, 1, 5⟩
    ⟨.ident, "m", 1, 7, 1⟩ ⟨.kwEndMacro, "endmacro", 1, 20, 8⟩ ⟨.directive, "#m", 1, 44, 2⟩
    [⟨.kwLet, "let", 1, 9, 3⟩, ⟨.ident, "x", 1, 13, 1⟩, ⟨.assign, "=", 1, 15, 1⟩,
      ⟨.integer, "1", 1, 17, 1⟩, ⟨.semi, ";", 1, 18, 1⟩]
    [⟨.kwLet, "let", 1, 29, 3⟩, ⟨.ident, "x_1_0", 1, 33, 5⟩, ⟨.assign, "=", 1, 39, 1⟩,
      ⟨.integer, "5", 1, 41, 1⟩, ⟨.semi, ";", 1, 42, 1⟩]
    [⟨.kwPrint, "print", 1, 47, 5⟩, ⟨.ident, "x_1_0", 1, 53, 5⟩, ⟨.semi, ";", 1, 58, 1⟩,
      ⟨.eof, "", 1, 59, 0⟩] rfl rfl (by decide) rfl (by decide) rfl (by decide +kernel) (by decide)
  refine ⟨_, _, engine, out, tokenize_capturing, hperforms, _, mem_cons_self,
    rename 1 0 ⟨.ident, "x", 1, 13, 1⟩, by simp, ⟨.ident, "x_1_0", 1, 33, 5⟩, ?_, rfl, rfl, ?_⟩
  · simp [outsideBodies]
  · decide +kernel

end ImpMachine
