import ImpMachine.Proofs.Halting

/-!
# Preprocessed tokens are settled

What preprocessing gives asks for nothing more: it holds no loop and no directive, and every
definition in it is whole, with a body in which nothing is left to do (`Settled`). A new engine
knows macro bodies only that were read off as definitions, and no body holds an end of a
definition. So no definition is made while a body is expanded, and an expansion leaves none behind
(`Performs.inner`); all other definitions stand in the tokens as they were written
(`Performs.outer`). Processing the result again therefore gives the same tokens, and expands nothing
(`process_reaches_fixed_point`).
-/

namespace ImpMachine

open List

variable {after ts rest : List Token} {t keyword : Token} {b : Beginning} {engine engine' : Engine}
variable {P : Token → Prop} {f : Forest}

namespace Expansion

/-! ## Settled tokens -/

/-- The token asks for nothing. -/
def Plain (t : Token) : Prop := t.kind ≠ .kwMacro ∧ t.kind ≠ .directive ∧ t.kind ≠ .kwFor

/-- The token asks for nothing, and ends no definition. -/
def Inert (t : Token) : Prop := Plain t ∧ t.kind ≠ .kwEndMacro

instance (t : Token) : Decidable (Plain t) := inferInstanceAs (Decidable (_ ∧ _))

instance (t : Token) : Decidable (Inert t) := inferInstanceAs (Decidable (_ ∧ _))

/-- Tokens that ask for nothing, and whole definitions. -/
inductive Settled : List Token → Prop where
  | nil : Settled []
  | plain {t : Token} {rest : List Token} : Plain t → Settled rest → Settled (t :: rest)
  | definition {keyword name close : Token} {body rest : List Token} :
      keyword.kind = .kwMacro → name.kind = .ident → (∀ t ∈ body, Inert t) →
      close.kind = .kwEndMacro → Settled rest →
      Settled (keyword :: name :: (body ++ close :: rest))

namespace Settled

variable {us : List Token}

theorem of_plain (h : ∀ t ∈ ts, Plain t) : Settled ts := by
  induction ts with
  | nil => exact .nil
  | cons t ts ih =>
    obtain ⟨ht, hts⟩ := forall_mem_cons.1 h
    exact .plain ht (ih hts)

theorem append (h : Settled ts) (h' : Settled us) : Settled (ts ++ us) := by
  induction h with
  | nil => exact h'
  | plain ht _ ih => exact .plain ht ih
  | definition hkeyword hname hbody hclose _ ih =>
    simpa using Settled.definition hkeyword hname hbody hclose ih

theorem not_mem (h : Settled ts) : ∀ t ∈ ts, t.kind ≠ .kwFor ∧ t.kind ≠ .directive := by
  induction h with
  | nil => simp
  | plain ht _ ih => exact forall_mem_cons.2 ⟨⟨ht.2.2, ht.2.1⟩, ih⟩
  | definition hkeyword hname hbody hclose _ ih =>
    simp only [forall_mem_cons, forall_mem_append]
    refine ⟨?_, ?_, fun t ht => ⟨(hbody t ht).1.2.2, (hbody t ht).1.2.1⟩, ?_, ih⟩
    · simp [hkeyword]
    · simp [hname]
    · simp [hclose]

/-- Every definition is whole and stands in no other. -/
theorem exists_close (h : Settled ts) {before : List Token}
    (hts : ts = before ++ t :: after) (ht : t.kind = .kwMacro) :
    ∃ name body close rest, after = name :: (body ++ close :: rest) ∧ name.kind = .ident ∧
      close.kind = .kwEndMacro ∧ ∀ u ∈ body, u.kind ≠ .kwMacro := by
  induction h generalizing before with
  | nil => simp at hts
  | plain hplain _ ih =>
    cases before with
    | nil =>
      cases hts
      exact (hplain.1 ht).elim
    | cons u before =>
      cases hts
      exact ih rfl
  | @definition keyword name close body rest hkeyword hname hbody hclose _ ih =>
    cases before with
    | nil =>
      cases hts
      exact ⟨name, body, close, rest, rfl, hname, hclose, fun u hu => (hbody u hu).1.1⟩
    | cons u before =>
      -- neither the name nor a token of the body nor the closing one begins a definition
      obtain ⟨-, hts⟩ := cons_eq_cons.1 hts
      cases before with
      | nil =>
        obtain ⟨rfl, -⟩ := cons_eq_cons.1 hts
        simp [hname] at ht
      | cons u before =>
        obtain ⟨-, hts⟩ := cons_eq_cons.1 hts
        rcases append_eq_append_iff.1 hts with ⟨as, rfl, has⟩ | ⟨as, rfl, has⟩
        · cases as with
          | nil =>
            cases has
            simp [hclose] at ht
          | cons a as =>
            cases has
            exact ih rfl
        · cases as with
          | nil =>
            cases has
            simp [hclose] at ht
          | cons a as =>
            cases has
            exact ((hbody t (by simp)).1.1 ht).elim

end Settled

/-! ## Reading -/

/-- A definition is a name, a body without an end, and an end. -/
theorem readDefinition_eq_ok_iff {d : Definition} :
    readDefinition keyword ts = .ok d ↔
      ts = d.name :: (d.body ++ d.close :: d.after) ∧ d.name.kind = .ident ∧
        (∀ t ∈ d.body, t.kind ≠ .kwEndMacro) ∧ d.close.kind = .kwEndMacro := by
  obtain ⟨name, body, close, after⟩ := d
  constructor
  · intro h
    cases ts with
    | nil => cases h
    | cons t rest =>
      rw [readDefinition] at h
      split at h
      case isFalse => cases h
      rename_i hname
      have hsplit := takeWhile_append_dropWhile (p := (·.kind != .kwEndMacro)) (l := rest)
      split at h
      case h_2 => cases h
      rename_i c as hrest
      cases h
      refine ⟨by rw [← hrest, hsplit], hname, fun t ht => ?_, ?_⟩
      · simpa using all_eq_true.1 (all_takeWhile (l := rest)) t ht
      · have hclose := List.head?_dropWhile_not (p := (·.kind != .kwEndMacro)) (l := rest)
        rw [hrest] at hclose
        simpa using hclose
  · rintro ⟨rfl, hname, hbody, hclose⟩
    have hall : ∀ t ∈ body, (t.kind != .kwEndMacro) = true := fun t ht => by simpa using hbody t ht
    have hstop : (close.kind != .kwEndMacro) = false := by simpa using hclose
    dsimp only at hname ⊢
    rw [readDefinition, if_pos hname, dropWhile_append_of_pos hall,
      takeWhile_append_of_pos hall, dropWhile_cons_of_neg (by simp [hstop]),
      takeWhile_cons_of_neg (by simp [hstop]), append_nil]

/-- The copies of a loop hold tokens of the loop, and numbers. -/
theorem mem_of_unrollLoop {copies : List Token} (h : unrollLoop keyword ts = .ok (copies, after)) :
    (∀ t ∈ copies, t ∈ ts ∨ t.kind = .integer) ∧ after ⊆ ts := by
  unfold unrollLoop at h
  obtain ⟨l, hl, h⟩ := bind_eq_ok.1 h
  split at h
  · cases h
  cases h
  obtain ⟨brace, inner, -, hsuffix, hsplit⟩ := exists_split_of_readLoop hl
  obtain ⟨close, rfl⟩ := eq_append_of_splitBody hsplit
  have hmem {t : Token} (ht : t ∈ brace :: (l.body ++ close :: l.after)) : t ∈ ts :=
    hsuffix.subset ht
  refine ⟨fun t ht => ?_, fun t ht => hmem (by simp [ht])⟩
  obtain ⟨value, -, ht⟩ := mem_flatMap.1 ht
  obtain ⟨u, hu, rfl⟩ := mem_map.1 ht
  unfold Loop.substitute
  split
  · exact .inr rfl
  · exact .inl (hmem (by simp [hu]))

end Expansion

open Expansion

namespace Engine

variable {body : List Token}

/-- What processing can begin with. -/
theorem beginning_eq_ok (h : engine.beginning t rest = .ok b) :
    (∃ d, t.kind = .kwMacro ∧ readDefinition t rest = .ok d ∧
      b = ⟨engine.define d.name.text d.body, .process d.body,
        fun body => t :: d.name :: body ++ [d.close], d.after⟩) ∨
    (t.kind = .directive ∧ b = ⟨engine, .expand t, fun body => body, rest⟩) ∨
    (∃ copies after, t.kind = .kwFor ∧ unrollLoop t rest = .ok (copies, after) ∧
      b = ⟨engine, .process copies, fun body => body, after⟩) ∨
    (Plain t ∧ b = ⟨engine, .process [], fun _ => [t], rest⟩) := by
  unfold beginning at h
  split at h
  · rename_i hkind
    obtain ⟨d, hd, rfl⟩ := map_eq_ok.1 h
    exact .inl ⟨d, hkind, hd, rfl⟩
  · rename_i hkind
    cases h
    exact .inr (.inl ⟨hkind, rfl⟩)
  · rename_i hkind
    obtain ⟨⟨copies, after⟩, hloop, rfl⟩ := map_eq_ok.1 h
    exact .inr (.inr (.inl ⟨copies, after, hkind, hloop, rfl⟩))
  · rename_i hdef hdirective hfor
    cases h
    exact .inr (.inr (.inr ⟨⟨hdef, hdirective, hfor⟩, rfl⟩))

/-! ## What an engine knows -/

/-- Every token of a macro body is as given, and ends no definition. -/
def Knows (engine : Engine) (P : Token → Prop) : Prop :=
  ∀ entry ∈ engine.macros, ∀ t ∈ entry.2, P t ∧ t.kind ≠ .kwEndMacro

theorem knows_empty (P : Token → Prop) : Engine.empty.Knows P :=
  fun _ hentry => absurd hentry not_mem_nil

theorem Knows.congr (h : engine.Knows P) (heq : engine'.macros = engine.macros) :
    engine'.Knows P := by
  rw [Knows, heq]
  exact h

theorem Knows.define (h : engine.Knows P) (name : String)
    (hbody : ∀ t ∈ body, P t ∧ t.kind ≠ .kwEndMacro) : (engine.define name body).Knows P :=
  forall_mem_cons.2 ⟨hbody, h⟩

theorem Knows.of_body? (h : engine.Knows P) {name : String}
    (hbody : engine.body? name = some body) : ∀ t ∈ body, P t ∧ t.kind ≠ .kwEndMacro := by
  obtain ⟨front, back, hmacros, -⟩ := lookup_eq_some_iff.1 hbody
  exact h (name, body) (by simp [hmacros])

end Engine

/-- The operation reads no end of a definition. -/
def Operation.EndsNone : Operation → Prop
  | .define _ _ => False
  | .expand _ => True
  | .process tokens => ∀ t ∈ tokens, t.kind ≠ .kwEndMacro

/-- The tokens that the operation reads are as given. -/
def Operation.Reads (P : Token → Prop) : Operation → Prop
  | .define _ body => ∀ t ∈ body, P t ∧ t.kind ≠ .kwEndMacro
  | .expand _ => True
  | .process tokens => ∀ t ∈ tokens, P t

/-- The tokens of all expanded bodies are as given. -/
def Expansion.Forest.Inserts (f : Forest) (P : Token → Prop) : Prop :=
  ∀ level serial, ∀ x ∈ f.entries level serial, ∀ t ∈ x.insertion.body, P t

namespace Expansion.Forest.Inserts

variable {g : Forest}

theorem nil : Inserts .nil P := fun _ _ _ hx => absurd hx not_mem_nil

theorem node {first : Insertion} (hfirst : ∀ t ∈ first.body, P t) (hf : f.Inserts P) :
    Inserts (.node first f .nil) P := by
  intro level serial
  simp only [entries, append_nil, forall_mem_cons]
  exact ⟨hfirst, hf _ _⟩

theorem append (hf : f.Inserts P) (hg : g.Inserts P) : Inserts (f.append g) P := by
  intro level serial
  rw [entries_append, forall_mem_append]
  exact ⟨hf _ _, hg _ _⟩

end Expansion.Forest.Inserts

namespace Engine

variable {operation : Operation} {outcome : Outcome}

/-! ## Expansions define nothing -/

/-- Where no definition can end, none is read. -/
theorem of_beginning_of_endsNone (h : engine.beginning t rest = .ok b)
    (hend : ∀ u ∈ t :: rest, u.kind ≠ .kwEndMacro) :
    b.engine = engine ∧ b.operation.EndsNone ∧ (∀ u ∈ b.after, u.kind ≠ .kwEndMacro) ∧
      ∀ body, (∀ u ∈ body, Inert u) → ∀ u ∈ b.frame body, Inert u := by
  obtain ⟨ht, hrest⟩ := forall_mem_cons.1 hend
  rcases beginning_eq_ok h with ⟨d, -, hread, -⟩ | ⟨-, rfl⟩ | ⟨copies, after, -, hloop, rfl⟩ |
    ⟨hplain, rfl⟩
  · obtain ⟨rfl, -, -, hclose⟩ := readDefinition_eq_ok_iff.1 hread
    exact (hrest d.close (by simp) hclose).elim
  · exact ⟨rfl, trivial, hrest, fun _ => id⟩
  · obtain ⟨hcopies, hafter⟩ := mem_of_unrollLoop hloop
    refine ⟨rfl, fun u hu => ?_, fun u hu => hrest u (hafter hu), fun _ => id⟩
    rcases hcopies u hu with hu | hu
    · exact hrest u hu
    · simp [hu]
  · exact ⟨rfl, by simp [Operation.EndsNone], hrest, fun _ _ => by simpa using ⟨hplain, ht⟩⟩

/-- **An expansion defines nothing**, and leaves no part of a definition. -/
theorem Performs.inner (h : Performs engine operation f outcome) (hengine : engine.Knows P)
    (hend : operation.EndsNone) :
    outcome.1.macros = engine.macros ∧ f.Inserts P ∧
      ∀ out, outcome.2 = .ok out → ∀ t ∈ out, Inert t := by
  induction h with
  | define => exact hend.elim
  | unknown | tooDeep | malformed =>
    refine ⟨rfl, .nil, fun out hout => ?_⟩
    cases hout
  | nil =>
    refine ⟨rfl, .nil, fun out hout => ?_⟩
    cases hout
    simp
  | @expand engine directive body inner outcome hbody hdepth _ ih =>
    have htokens := hengine.of_body? hbody
    have hinsertion : ∀ t ∈ engine.insertion body, t.kind ≠ .kwEndMacro := by
      intro t ht
      obtain ⟨u, hu, rfl⟩ := mem_map.1 ht
      rw [kind_rename]
      exact (htokens u hu).2
    obtain ⟨hmacros, hinserts, hinert⟩ := ih hengine hinsertion
    exact ⟨hmacros, hinserts.node fun t ht => (htokens t ht).1, hinert⟩
  | fails hbegin _ ih =>
    obtain ⟨hengine', hfirst, -, -⟩ := of_beginning_of_endsNone hbegin hend
    obtain ⟨hmacros, hinserts, -⟩ := ih (hengine' ▸ hengine) hfirst
    refine ⟨hengine' ▸ hmacros, hinserts, fun out hout => ?_⟩
    cases hout
  | @continues engine inner t rest body b f g outcome hbegin _ _ ihfirst ihafter =>
    obtain ⟨hengine', hfirst, hafter, hframe⟩ := of_beginning_of_endsNone hbegin hend
    obtain ⟨hmacros, hinserts, hinert⟩ := ihfirst (hengine' ▸ hengine) hfirst
    rw [hengine'] at hmacros
    obtain ⟨hmacros', hinserts', hinert'⟩ := ihafter (hengine.congr hmacros) hafter
    refine ⟨hmacros'.trans hmacros, hinserts.append hinserts', fun out hout => ?_⟩
    obtain ⟨out', hout', rfl⟩ := map_eq_ok.1 hout
    exact forall_mem_append.2 ⟨hframe body (hinert body rfl), hinert' out' hout'⟩

/-! ## Definitions stay as they are -/

/-- The first operation leaves settled tokens, if it does so for a loop. -/
theorem Performs.settled_frame {inner : Engine} {result : Except SourceError (List Token)}
    (hP : ∀ t : Token, t.kind = .integer → P t) (hbegin : engine.beginning t rest = .ok b)
    (h : Performs b.engine b.operation f (inner, result)) (hengine : engine.Knows P)
    (hreads : ∀ u ∈ t :: rest, P u) (hloop : b.engine.Knows P → b.operation.Reads P →
      inner.Knows P ∧ f.Inserts P ∧ ∀ out, result = .ok out → Settled out) :
    inner.Knows P ∧ f.Inserts P ∧ (∀ u ∈ b.after, P u) ∧
      ∀ body, result = .ok body → Settled (b.frame body) := by
  have hrest := (forall_mem_cons.1 hreads).2
  rcases beginning_eq_ok hbegin with ⟨d, hkind, hread, rfl⟩ | ⟨-, rfl⟩ |
    ⟨copies, after, -, hunroll, rfl⟩ | ⟨hplain, rfl⟩
  · obtain ⟨rfl, hname, hbody, hclose⟩ := readDefinition_eq_ok_iff.1 hread
    have hdefined := hengine.define d.name.text fun u hu => ⟨hrest u (by simp [hu]), hbody u hu⟩
    obtain ⟨hmacros, hinserts, hinert⟩ := h.inner hdefined hbody
    refine ⟨hdefined.congr hmacros, hinserts, fun u hu => hrest u (by simp [hu]),
      fun body hok => ?_⟩
    simpa using Settled.definition hkind hname (hinert body hok) hclose .nil
  · obtain ⟨hmacros, hinserts, hinert⟩ := h.inner hengine trivial
    exact ⟨hengine.congr hmacros, hinserts, hrest, fun body hok =>
      .of_plain fun u hu => (hinert body hok u hu).1⟩
  · obtain ⟨hcopies, hafter⟩ := mem_of_unrollLoop hunroll
    obtain ⟨hinner, hinserts, hsettled⟩ :=
      hloop hengine fun u hu => (hcopies u hu).elim (hrest u) (hP u)
    exact ⟨hinner, hinserts, fun u hu => hrest u (hafter hu), hsettled⟩
  · obtain ⟨hinner, hinserts, -⟩ := hloop hengine (by simp [Operation.Reads])
    exact ⟨hinner, hinserts, hrest, fun _ _ => .plain hplain .nil⟩

/-- **What an operation gives is settled.** -/
theorem Performs.outer (hP : ∀ t : Token, t.kind = .integer → P t)
    (h : Performs engine operation f outcome) (hengine : engine.Knows P)
    (hreads : operation.Reads P) :
    outcome.1.Knows P ∧ f.Inserts P ∧ ∀ out, outcome.2 = .ok out → Settled out := by
  induction h with
  | define =>
    refine ⟨hengine.define _ hreads, .nil, fun out hout => ?_⟩
    cases hout
    exact .nil
  | unknown | tooDeep | malformed =>
    refine ⟨hengine, .nil, fun out hout => ?_⟩
    cases hout
  | nil =>
    refine ⟨hengine, .nil, fun out hout => ?_⟩
    cases hout
    exact .nil
  | expand hbody hdepth hinner _ =>
    obtain ⟨hmacros, hinserts, hinert⟩ :=
      (Performs.expand hbody hdepth hinner).inner hengine trivial
    exact ⟨hengine.congr hmacros, hinserts, fun out hout =>
      .of_plain fun t ht => (hinert out hout t ht).1⟩
  | fails hbegin hfirst ih =>
    obtain ⟨hinner, hinserts, -⟩ := hfirst.settled_frame hP hbegin hengine hreads ih
    refine ⟨hinner, hinserts, fun out hout => ?_⟩
    cases hout
  | continues hbegin hfirst _ ihfirst ihafter =>
    obtain ⟨hinner, hinserts, hafter, hframe⟩ :=
      hfirst.settled_frame hP hbegin hengine hreads ihfirst
    obtain ⟨hlast, hinserts', hsettled⟩ := ihafter hinner hafter
    refine ⟨hlast, hinserts.append hinserts', fun out hout => ?_⟩
    obtain ⟨out', hout', rfl⟩ := map_eq_ok.1 hout
    exact (hframe _ rfl).append (hsettled out' hout')

/-! ## Processing again -/

theorem beginning_of_plain (h : Plain t) (engine : Engine) (rest : List Token) :
    engine.beginning t rest = .ok ⟨engine, .process [], fun _ => [t], rest⟩ :=
  beginning_of_ne engine rest h.1 h.2.1 h.2.2

theorem process_of_plain (h : ∀ t ∈ ts, Plain t) (engine : Engine) :
    engine.process ts = (engine, .ok ts) := by
  induction ts with
  | nil => exact process_nil engine
  | cons t ts ih =>
    obtain ⟨ht, hts⟩ := forall_mem_cons.1 h
    simp only [process_cons, beginning_of_plain ht, perform, process_nil, ih hts]
    rfl

/-- Settled tokens are defined again, and nothing else happens. -/
theorem process_of_settled (h : Settled ts) (engine : Engine) :
    ∃ macros, engine.process ts = ({ engine with macros }, .ok ts) := by
  induction h generalizing engine with
  | nil => exact ⟨engine.macros, process_nil engine⟩
  | @plain t rest ht _ ih =>
    obtain ⟨macros, hrest⟩ := ih engine
    refine ⟨macros, ?_⟩
    simp only [process_cons, beginning_of_plain ht, perform, process_nil, hrest]
    rfl
  | @definition keyword name close body rest hkeyword hname hbody hclose _ ih =>
    obtain ⟨macros, hrest⟩ := ih (engine.define name.text body)
    refine ⟨macros, ?_⟩
    have hread : readDefinition keyword (name :: (body ++ close :: rest)) =
        .ok ⟨name, body, close, rest⟩ :=
      readDefinition_eq_ok_iff.2 ⟨rfl, hname, fun t ht => (hbody t ht).2, hclose⟩
    have hbegin : engine.beginning keyword (name :: (body ++ close :: rest)) =
        .ok ⟨engine.define name.text body, .process body,
          fun out => keyword :: name :: out ++ [close], rest⟩ := by
      simp only [beginning, hkeyword, hread]
      rfl
    simp only [process_cons, hbegin, perform, process_of_plain fun t ht => (hbody t ht).1, hrest]
    simp [Outcome.prepend, Except.map, define]

end Engine

/-- **Preprocessing reaches a fixed point.** What it gives holds no loop and no directive, every
definition in it is whole, and the engine gives the same tokens for it once more, without an
expansion. -/
theorem process_reaches_fixed_point {tokens out : List Token}
    (h : (Engine.empty.process tokens).2 = .ok out) :
    (∀ t ∈ out, t.kind ≠ .kwFor ∧ t.kind ≠ .directive) ∧
      (∀ before t after, out = before ++ t :: after → t.kind = .kwMacro →
        ∃ name body close rest, after = name :: (body ++ close :: rest) ∧ name.kind = .ident ∧
          close.kind = .kwEndMacro ∧ ∀ u ∈ body, u.kind ≠ .kwMacro) ∧
      ((Engine.empty.process tokens).1.process out).2 = .ok out ∧
      ((Engine.empty.process tokens).1.process out).1.trace =
        (Engine.empty.process tokens).1.trace := by
  obtain ⟨f, hperforms⟩ := Engine.exists_performs .empty (.process tokens)
  obtain ⟨-, -, hsettled⟩ :=
    hperforms.outer (fun _ _ => trivial) (Engine.knows_empty fun _ => True) fun _ _ => trivial
  have hsettled := hsettled out h
  obtain ⟨macros, hagain⟩ :=
    Engine.process_of_settled hsettled (Engine.empty.process tokens).1
  exact ⟨hsettled.not_mem, fun before t after => hsettled.exists_close, by rw [hagain],
    by rw [hagain]⟩

/-- A loop over a definition and its use. -/
def definedTwice : List Token :=
  [.ofText .kwFor "for" 1 1, .ofText .ident "i" 1 5, .ofText .kwIn "in" 1 7,
    .ofText .integer "1" 1 10, .ofText .dotDot ".." 1 11, .ofText .integer "2" 1 13,
    .ofText .lbrace "\x7b" 1 15, .ofText .kwMacro "macro" 1 17, .ofText .ident "m" 1 23,
    .ofText .ident "a" 1 25, .ofText .ident "i" 1 27, .ofText .kwEndMacro "endmacro" 1 29,
    .ofText .directive "#m" 1 38, .ofText .rbrace "\x7d" 1 41]

theorem texts_definedTwice :
    (Engine.empty.process definedTwice).2.map (·.map Token.text) =
      .ok ["macro", "m", "a", "1", "endmacro", "a_1_0", "1", "macro", "m", "a", "2", "endmacro",
        "a_1_1", "2"] :=
  eq_ok_of_toOption (Stage.apply_process 30
    (fun outcome => (outcome.2.map (·.map Token.text)).toOption) (by decide +kernel))

/-- Both copies of the loop keep their definition, and the second processing leaves them alone. -/
theorem process_reaches_fixed_point_definedTwice :
    ∃ out, (Engine.empty.process definedTwice).2 = .ok out ∧
      out.map Token.text = ["macro", "m", "a", "1", "endmacro", "a_1_0", "1", "macro", "m", "a",
        "2", "endmacro", "a_1_1", "2"] ∧
      ((Engine.empty.process definedTwice).1.process out).2 = .ok out ∧
      ((Engine.empty.process definedTwice).1.process out).1.trace =
        (Engine.empty.process definedTwice).1.trace := by
  obtain ⟨out, hout, htexts⟩ := map_eq_ok.1 texts_definedTwice
  exact ⟨out, hout, htexts, (process_reaches_fixed_point hout).2.2⟩

end ImpMachine
