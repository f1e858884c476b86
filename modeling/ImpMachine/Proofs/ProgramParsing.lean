import ImpMachine.Proofs.ExpressionParsing

/-!
# Programs are parsed by the grammar

The two halves for statements, along the same lines as those for expressions: what is read is a
phrase (`soundParts`), and a phrase is read whole (`Builds.parses`). An `if` without `else` is the
only phrase whose end depends on what follows it, and no statement starts with `else`. Together:
`parseProgram` accepts exactly the programs of the grammar, with the tree that the grammar gives.
-/

open List

namespace ImpMachine.Grammar

open ImpMachine.Parser

variable {stop paren : Token} {body : List Stmt} {phrase tokens rest : List Token} {e : Expr}
variable {part : Part} {params : List String} {s : Stmt}

/-! ## Soundness -/

theorem exists_condition (hlegible : Legible tokens) (h : Reads (condition stop tokens) e rest) :
    ∃ phrase, tokens = phrase ++ rest ∧ Condition phrase e := by
  obtain ⟨paren, mid, paren', rfl, hparen, hinner, hparen'⟩ := reads_condition.1 h
  obtain ⟨phrase, rfl, hphrase⟩ := (sound stop mid hlegible.tail).expression hinner
  exact ⟨paren :: (phrase ++ [paren']), by simp,
    paren, phrase, paren', rfl, hparen, hphrase, hparen'⟩

theorem exists_closed (hlegible : Legible tokens)
    (h : Reads (closedExpression stop tokens) e rest) :
    ∃ phrase, tokens = phrase ++ rest ∧ Closed phrase e := by
  obtain ⟨semi, hinner, hsemi⟩ := reads_closedExpression.1 h
  obtain ⟨phrase, rfl, hphrase⟩ := (sound stop tokens hlegible).expression hinner
  exact ⟨phrase ++ [semi], by simp, phrase, semi, rfl, hphrase, hsemi⟩

/-- The tokens start with names, commas between them and a closing parenthesis. -/
def StartsNames (tokens : List Token) (params : List String) (rest : List Token) : Prop :=
  ∃ (names phrase : List Token) (paren : Token),
    tokens = phrase ++ paren :: rest ∧ paren.kind = .rparen ∧ params = names.map (·.text) ∧
      (∀ n ∈ names, n.kind = .ident) ∧ Separated (names.map ([·])) phrase

/-- What is read as parameters is a list of names. -/
theorem startsNames_parameterList (h : Reads (parameterList stop tokens) params rest) :
    StartsNames tokens params rest ∧ params ≠ [] := by
  induction hn : tokens.length using Nat.strong_induction_on generalizing tokens params with
  | _ n ih =>
    obtain ⟨name, t, more, rfl, hname, hcases⟩ := reads_parameterList.1 h
    rcases hcases with ⟨ht, later, hlater, rfl⟩ | ⟨ht, rfl, rfl⟩
    · simp only [length_cons] at hn
      obtain ⟨⟨names, phrase, paren, rfl, hparen, rfl, hnames, hseparated⟩, hne⟩ :=
        ih more.length (by omega) hlater rfl
      refine ⟨⟨name :: names, name :: t :: phrase, paren, rfl, hparen, rfl,
        forall_mem_cons.2 ⟨hname, hnames⟩, ?_⟩, by simp⟩
      cases names with
      | nil => exact absurd rfl hne
      | cons next names => exact Separated.cons ht hseparated
    · exact ⟨⟨[name], [name], t, rfl, ht, rfl, by simpa using hname, .single⟩, by simp⟩

theorem startsNames_parameters (h : Reads (parameters stop tokens) params rest) :
    StartsNames tokens params rest := by
  obtain ⟨t, more, rfl, ⟨ht, rfl, rfl⟩ | ⟨-, hlist⟩⟩ := reads_parameters.1 h
  · exact ⟨[], [], t, rfl, ht, rfl, by simp, .nil⟩
  · exact (startsNames_parameterList hlist).1

/-- The tokens start with such a phrase, and `rest` is left. -/
def StartsPart (part : Part) (tokens : List Token) (body : List Stmt) (rest : List Token) : Prop :=
  ∃ phrase, tokens = phrase ++ rest ∧ Builds part phrase body

/-- What the parser reads off the tokens are phrases, those of a conditional behind its `if`. -/
structure SoundParts (stop : Token) (tokens : List Token) : Prop where
  declaration {s : Stmt} {rest : List Token} :
    Reads (declaration stop tokens) s rest → StartsPart .declaration tokens [s] rest
  conditional {s : Stmt} {rest : List Token} {keyword : Token} :
    Reads (conditional stop tokens) s rest → keyword.kind = .kwIf →
      StartsPart .conditional (keyword :: tokens) [s] rest
  block {body : List Stmt} {rest : List Token} :
    Reads (block stop tokens) body rest → StartsPart .block tokens body rest
  blockItems {body : List Stmt} {rest : List Token} :
    Reads (blockItems stop tokens) body rest →
      ∃ brace, brace.kind = .rbrace ∧ StartsPart .items tokens body (brace :: rest)
  macroItems {body : List Stmt} {rest : List Token} :
    Reads (macroItems stop tokens) body rest →
      ∃ last, last.kind = .kwEndMacro ∧ StartsPart .macroItems tokens body (last :: rest)

section Step

variable (ih : ∀ shorter : List Token, shorter.length < tokens.length → Legible shorter →
  SoundParts stop shorter)
variable (hlegible : Legible tokens)

include ih hlegible

theorem startsPart_block (h : Reads (block stop tokens) body rest) :
    StartsPart .block tokens body rest := by
  obtain ⟨brace, mid, rfl, hbrace, hitems⟩ := reads_block.1 h
  obtain ⟨brace', hbrace', phrase, rfl, hphrase⟩ :=
    (ih mid (by simp) hlegible.tail).blockItems hitems
  exact ⟨brace :: (phrase ++ [brace']), by simp, .block hbrace hphrase hbrace'⟩

/-- What is read as a conditional is one. -/
theorem startsPart_conditional {keyword : Token} (hkeyword : keyword.kind = .kwIf)
    (h : Reads (conditional stop tokens) s rest) :
    StartsPart .conditional (keyword :: tokens) [s] rest := by
  obtain ⟨cond, mid, hcond, body, after, hbody, hcases⟩ := reads_conditional.1 h
  have hmid := hcond.shorter
  have hafter := hbody.shorter
  obtain ⟨condition, rfl, hcondition⟩ := exists_condition hlegible hcond
  obtain ⟨block, rfl, hblock⟩ := (ih mid hmid hlegible.right).block hbody
  rcases hcases with ⟨-, rfl, rfl⟩ | ⟨t, u, others, rfl, ht, hcases⟩
  · exact ⟨keyword :: (condition ++ block), by simp, .ifThen hkeyword hcondition hblock⟩
  · have hothers := hlegible.right.right.tail
    simp only [length_cons] at hafter
    rcases hcases with ⟨hu, alternative, halternative, rfl⟩ | ⟨-, alternative, halternative, rfl⟩
    · obtain ⟨phrase, heq, hphrase⟩ :=
        (ih others (by omega) hothers.tail).conditional halternative hu
      exact ⟨keyword :: (condition ++ (block ++ t :: phrase)), by simp [heq],
        .ifElse hkeyword hcondition hblock ht (.inl rfl) hphrase⟩
    · obtain ⟨phrase, heq, hphrase⟩ :=
        (ih (u :: others) (by simp only [length_cons]; omega) hothers).block halternative
      exact ⟨keyword :: (condition ++ (block ++ t :: phrase)), by simp [heq],
        .ifElse hkeyword hcondition hblock ht (.inr rfl) hphrase⟩

/-- **What is read as a declaration is one.** -/
theorem startsPart_declaration (h : Reads (declaration stop tokens) s rest) :
    StartsPart .declaration tokens [s] rest := by
  obtain ⟨t, more, rfl, hcases⟩ := reads_declaration.1 h
  have hshorter : more.length < (t :: more).length := by simp
  -- one case for each word that can come first, then a block and an expression
  split at hcases
  · rename_i hkind
    obtain ⟨name, paren, mid, params, after, body, rfl, hname, hparen, hparams, hbody, rfl⟩ :=
      hcases
    have hafter := hparams.shorter
    obtain ⟨names, phrase, paren', rfl, hparen', rfl, hnames, hseparated⟩ :=
      startsNames_parameters hparams
    obtain ⟨block, rfl, hblock⟩ :=
      (ih after (by simp only [length_cons] at *; omega)
        hlegible.tail.tail.tail.right.tail).block hbody
    exact ⟨t :: name :: paren :: (phrase ++ paren' :: block), by simp,
      .function hkind hname hparen hnames hseparated hparen' hblock⟩
  · rename_i hkind
    obtain ⟨name, equals, mid, init, rfl, hname, hequals, hinit, rfl⟩ :=
      reads_variableDecl.1 hcases
    obtain ⟨phrase, rfl, hphrase⟩ := exists_closed hlegible.tail.tail.tail hinit
    exact ⟨t :: name :: equals :: phrase, rfl, .varDecl hkind hname hequals hphrase⟩
  · rename_i hkind
    obtain ⟨name, mid, body, rfl, hname, hbody, rfl⟩ := hcases
    obtain ⟨last, hlast, phrase, rfl, hphrase⟩ :=
      (ih mid (by simp only [length_cons]; omega) hlegible.tail.tail).macroItems hbody
    exact ⟨t :: name :: (phrase ++ [last]), by simp, .macroDecl hkind hname hphrase hlast⟩
  · rename_i hkind
    obtain ⟨phrase, heq, hphrase⟩ := (ih more hshorter hlegible.tail).conditional hcases hkind
    exact ⟨phrase, heq, .conditional hphrase⟩
  · rename_i hkind
    obtain ⟨cond, mid, body, hcond, hbody, rfl⟩ := hcases
    have hmid := hcond.shorter
    obtain ⟨condition, rfl, hcondition⟩ := exists_condition hlegible.tail hcond
    obtain ⟨block, rfl, hblock⟩ :=
      (ih mid (by omega) hlegible.tail.right).block hbody
    exact ⟨t :: (condition ++ block), by simp, .loop hkind hcondition hblock⟩
  · rename_i hkind
    obtain ⟨value, hvalue, rfl⟩ := hcases
    obtain ⟨phrase, rfl, hphrase⟩ := exists_closed hlegible.tail hvalue
    exact ⟨t :: phrase, rfl, .ret hkind hphrase⟩
  · rename_i hkind
    obtain ⟨value, hvalue, rfl⟩ := hcases
    obtain ⟨phrase, rfl, hphrase⟩ := exists_closed hlegible.tail hvalue
    exact ⟨t :: phrase, rfl, .print hkind hphrase⟩
  · obtain ⟨body, hbody, rfl⟩ := hcases
    obtain ⟨phrase, heq, hphrase⟩ := startsPart_block ih hlegible hbody
    exact ⟨phrase, heq, .nested hphrase⟩
  · obtain ⟨value, hvalue, rfl⟩ := hcases
    obtain ⟨phrase, heq, hphrase⟩ := exists_closed hlegible hvalue
    exact ⟨phrase, heq, .expression hphrase⟩

theorem startsPart_blockItems (h : Reads (blockItems stop tokens) body rest) :
    ∃ brace, brace.kind = .rbrace ∧ StartsPart .items tokens body (brace :: rest) := by
  obtain ⟨t, more, rfl, ⟨ht, rfl, rfl⟩ | ⟨ht, hmore⟩ |
    ⟨-, -, item, mid, later, hitem, hlater, rfl⟩⟩ := reads_blockItems.1 h
  · exact ⟨t, ht, [], rfl, .noItems⟩
  · obtain ⟨brace, hbrace, phrase, rfl, hphrase⟩ :=
      (ih more (by simp) hlegible.tail).blockItems hmore
    exact ⟨brace, hbrace, t :: phrase, rfl, .stray ht hphrase⟩
  · have hmid := hitem.shorter
    obtain ⟨first, heq, hfirst⟩ := startsPart_declaration ih hlegible hitem
    obtain ⟨brace, hbrace, phrase, rfl, hphrase⟩ :=
      (ih mid hmid (heq ▸ hlegible).right).blockItems hlater
    exact ⟨brace, hbrace, first ++ phrase, by simp [heq], .item hfirst hphrase⟩

theorem startsPart_macroItems (h : Reads (macroItems stop tokens) body rest) :
    ∃ last, last.kind = .kwEndMacro ∧ StartsPart .macroItems tokens body (last :: rest) := by
  obtain ⟨t, more, rfl, ⟨ht, rfl, rfl⟩ | ⟨-, item, mid, later, hitem, hlater, rfl⟩⟩ :=
    reads_macroItems.1 h
  · exact ⟨t, ht, [], rfl, .noMacroItems⟩
  · have hmid := hitem.shorter
    obtain ⟨first, heq, hfirst⟩ := startsPart_declaration ih hlegible hitem
    obtain ⟨last, hlast, phrase, rfl, hphrase⟩ :=
      (ih mid hmid (heq ▸ hlegible).right).macroItems hlater
    exact ⟨last, hlast, first ++ phrase, by simp [heq], .macroItem hfirst hphrase⟩

end Step

/-- **What is read is a phrase.** -/
theorem soundParts (stop : Token) (tokens : List Token) (hlegible : Legible tokens) :
    SoundParts stop tokens := by
  induction hn : tokens.length using Nat.strong_induction_on generalizing tokens with
  | _ n ih =>
    have hshorter : ∀ shorter : List Token, shorter.length < tokens.length → Legible shorter →
        SoundParts stop shorter :=
      fun shorter hlt hshorter => ih shorter.length (hn ▸ hlt) shorter hshorter rfl
    exact ⟨startsPart_declaration hshorter hlegible,
      fun h hkeyword => startsPart_conditional hshorter hlegible hkeyword h,
      startsPart_block hshorter hlegible, startsPart_blockItems hshorter hlegible,
      startsPart_macroItems hshorter hlegible⟩

/-- **What is read as a program is built by the grammar.** -/
theorem builds_of_program (hlegible : Legible tokens)
    (h : program stop tokens = .ok body) : Builds .items tokens body := by
  induction hn : tokens.length using Nat.strong_induction_on generalizing tokens body with
  | _ n ih =>
    rcases program_eq_ok.1 h with ⟨rfl, rfl⟩ | ⟨t, more, rfl, ⟨ht, hmore⟩ |
      ⟨-, item, mid, later, hitem, hlater, rfl⟩⟩
    · exact .noItems
    · exact .stray ht (ih more.length (by simp [← hn]) hlegible.tail hmore rfl)
    · have hmid := hitem.shorter
      obtain ⟨first, heq, hfirst⟩ := (soundParts stop _ hlegible).declaration hitem
      rw [heq] at hlegible ⊢
      exact .item hfirst (ih mid.length (by omega) hlegible.right hlater rfl)

/-! ## Completeness -/

/-- The kinds of token that a declaration can start with. -/
def declarationKinds : List Token.Kind :=
  [.kwFunc, .kwLet, .kwMacro, .kwIf, .kwWhile, .kwReturn, .kwPrint, .lbrace] ++ startKinds

/-- The kinds of token that each phrase can start with. -/
def Part.startKinds : Part → List Token.Kind
  | .declaration => declarationKinds
  | .conditional => [.kwIf]
  | .block => [.lbrace]
  | .items => .semi :: declarationKinds
  | .macroItems => declarationKinds

theorem Closed.exists_head (h : Closed tokens e) :
    ∃ t more, tokens = t :: more ∧ t.kind ∈ startKinds := by
  obtain ⟨inner, semi, rfl, hinner, -⟩ := h
  obtain ⟨t, more, rfl, hkind⟩ := hinner.exists_head
  exact ⟨t, _, rfl, hkind⟩

/-- Only a list of items can be empty. -/
theorem Builds.exists_head (h : Builds part tokens body) :
    ((part = .items ∨ part = .macroItems) ∧ tokens = []) ∨
      ∃ t more, tokens = t :: more ∧ t.kind ∈ part.startKinds := by
  induction h with
  | function hkind | varDecl hkind | macroDecl hkind | loop hkind | ret hkind | print hkind
  | ifThen hkind | ifElse hkind | block hkind | stray hkind =>
    exact .inr ⟨_, _, rfl, by rw [hkind]; decide⟩
  | noItems => exact .inl ⟨.inl rfl, rfl⟩
  | noMacroItems => exact .inl ⟨.inr rfl, rfl⟩
  | expression hclosed =>
    obtain ⟨t, more, rfl, hkind⟩ := hclosed.exists_head
    exact .inr ⟨t, more, rfl, mem_append_right _ hkind⟩
  | conditional _ ih | nested _ ih =>
    obtain ⟨hempty, -⟩ | ⟨t, more, rfl, hkind⟩ := ih
    · simp at hempty
    · exact .inr ⟨t, more, rfl, by rw [mem_singleton.1 hkind]; decide⟩
  | item _ _ ih =>
    obtain ⟨hempty, -⟩ | ⟨t, more, rfl, hkind⟩ := ih
    · simp at hempty
    · exact .inr ⟨t, _, rfl, .tail _ hkind⟩
  | macroItem _ _ ih =>
    obtain ⟨hempty, -⟩ | ⟨t, more, rfl, hkind⟩ := ih
    · simp at hempty
    · exact .inr ⟨t, _, rfl, hkind⟩

/-- What follows is not the `else` of an `if`. -/
def EndsIf (rest : List Token) : Prop :=
  ∀ t, rest.head? = some t → t.kind ≠ .kwElse

theorem endsIf_nil : EndsIf [] := by
  intro t ht
  cases ht

theorem endsIf_cons {t : Token} (rest : List Token) (h : t.kind ≠ .kwElse) :
    EndsIf (t :: rest) := by
  intro u hu
  cases hu
  exact h

/-- No phrase starts with `else`. -/
theorem Builds.endsIf (h : Builds part tokens body)
    (hrest : EndsIf rest) : EndsIf (tokens ++ rest) := by
  obtain ⟨-, rfl⟩ | ⟨t, more, rfl, hkind⟩ := h.exists_head
  · exact hrest
  · refine endsIf_cons _ fun helse => ?_
    rw [helse] at hkind
    revert hkind
    cases part <;> decide

section Complete

variable (stop : Token) {names : List Token}

theorem reads_condition_of_phrase (h : Condition phrase e)
    (rest : List Token) : Reads (condition stop (phrase ++ rest)) e rest := by
  obtain ⟨paren, inner, paren', rfl, hparen, hinner, hparen'⟩ := h
  rw [cons_append, append_assoc]
  exact reads_condition.2 ⟨paren, _, paren', rfl, hparen,
    hinner.parses stop _ (endsPhrase_cons (by simp [hparen'])), hparen'⟩

theorem reads_closedExpression_of_phrase (h : Closed phrase e)
    (rest : List Token) : Reads (closedExpression stop (phrase ++ rest)) e rest := by
  obtain ⟨inner, semi, rfl, hinner, hsemi⟩ := h
  rw [append_assoc]
  exact reads_closedExpression.2
    ⟨semi, hinner.parses stop _ (endsPhrase_cons (by simp [hsemi])), hsemi⟩

theorem reads_parameterList_of_separated (rest : List Token) (hne : names ≠ [])
    (hseparated : Separated (names.map ([·])) tokens) (hnames : ∀ n ∈ names, n.kind = .ident)
    (hparen : paren.kind = .rparen) :
    Reads (parameterList stop (tokens ++ paren :: rest)) (names.map (·.text)) rest := by
  induction names generalizing tokens with
  | nil => exact absurd rfl hne
  | cons name names ih =>
    obtain ⟨hname, hnames⟩ := forall_mem_cons.1 hnames
    cases names with
    | nil =>
      cases hseparated
      exact reads_parameterList.2 ⟨name, paren, rest, rfl, hname, .inr ⟨hparen, rfl, rfl⟩⟩
    | cons next names =>
      obtain ⟨_, _⟩ | _ | ⟨hcomma, hseparated⟩ := hseparated
      exact reads_parameterList.2 ⟨name, _, _, rfl, hname,
        .inl ⟨hcomma, _, ih (by simp) hseparated hnames, rfl⟩⟩

theorem reads_parameters_of_separated (rest : List Token)
    (hseparated : Separated (names.map ([·])) tokens) (hnames : ∀ n ∈ names, n.kind = .ident)
    (hparen : paren.kind = .rparen) :
    Reads (parameters stop (tokens ++ paren :: rest)) (names.map (·.text)) rest := by
  cases names with
  | nil =>
    cases hseparated
    exact reads_parameters.2 ⟨paren, rest, rfl, .inl ⟨hparen, rfl, rfl⟩⟩
  | cons name names =>
    have hlist := reads_parameterList_of_separated stop rest (by simp) hseparated hnames hparen
    obtain ⟨others, rfl⟩ := hseparated.starts
    refine reads_parameters.2 ⟨name, others ++ paren :: rest, rfl, .inr ⟨?_, hlist⟩⟩
    rw [hnames name (.head _)]
    decide

/-- A declaration that starts like an expression is one. -/
theorem reads_declaration_of_closed (h : Closed phrase e)
    (rest : List Token) : Reads (declaration stop (phrase ++ rest)) (.expr e) rest := by
  have hread := reads_closedExpression_of_phrase stop h rest
  obtain ⟨t, more, rfl, hkind⟩ := h.exists_head
  refine reads_declaration.2 ⟨t, more ++ rest, rfl, ?_⟩
  simp only [startKinds, mem_cons, not_mem_nil, or_false] at hkind
  rcases hkind with hkind | hkind | hkind | hkind | hkind | hkind | hkind | hkind | hkind | hkind |
    hkind <;>
  · rw [hkind]
    exact ⟨e, hread, rfl⟩

/-- How phrases of each kind are read. Items are read in a block and as a whole program. -/
def ParsesPart (stop : Token) : Part → List Token → List Stmt → Prop
  | .declaration, phrase, body =>
    ∃ s, body = [s] ∧ ∀ rest, EndsIf rest → Reads (declaration stop (phrase ++ rest)) s rest
  | .conditional, phrase, body =>
    ∃ s keyword more, body = [s] ∧ phrase = keyword :: more ∧ keyword.kind = .kwIf ∧
      ∀ rest, EndsIf rest → Reads (conditional stop (more ++ rest)) s rest
  | .block, phrase, body => ∀ rest, Reads (block stop (phrase ++ rest)) body rest
  | .items, phrase, body =>
    program stop phrase = .ok body ∧ ∀ brace rest, brace.kind = .rbrace →
      Reads (blockItems stop (phrase ++ brace :: rest)) body rest
  | .macroItems, phrase, body =>
    ∀ last rest, last.kind = .kwEndMacro →
      Reads (macroItems stop (phrase ++ last :: rest)) body rest

end Complete

/-- **A phrase is read whole.** -/
theorem Builds.parses (h : Builds part phrase body) (stop : Token) :
    ParsesPart stop part phrase body := by
  induction h with
  | function hkind hname hparen hnames hseparated hparen' _ hblock =>
    refine ⟨_, rfl, fun rest _ => ?_⟩
    rw [cons_append, cons_append, cons_append, append_assoc]
    refine reads_declaration.2 ⟨_, _, rfl, ?_⟩
    rw [hkind]
    exact ⟨_, _, _, _, _, _, rfl, hname, hparen,
      reads_parameters_of_separated stop _ hseparated hnames hparen', hblock rest, rfl⟩
  | varDecl hkind hname hequals hclosed =>
    refine ⟨_, rfl, fun rest _ => reads_declaration.2 ⟨_, _, rfl, ?_⟩⟩
    rw [hkind]
    exact reads_variableDecl.2 ⟨_, _, _, _, rfl, hname, hequals,
      reads_closedExpression_of_phrase stop hclosed rest, rfl⟩
  | macroDecl hkind hname _ hlast hbody =>
    refine ⟨_, rfl, fun rest _ => ?_⟩
    rw [cons_append, cons_append, append_assoc]
    refine reads_declaration.2 ⟨_, _, rfl, ?_⟩
    rw [hkind]
    exact ⟨_, _, _, rfl, hname, hbody _ rest hlast, rfl⟩
  | conditional _ ih =>
    obtain ⟨s, keyword, more, rfl, rfl, hkind, hread⟩ := ih
    refine ⟨s, rfl, fun rest hends => reads_declaration.2 ⟨_, _, rfl, ?_⟩⟩
    rw [hkind]
    exact hread rest hends
  | loop hkind hcondition _ hblock =>
    refine ⟨_, rfl, fun rest _ => ?_⟩
    rw [cons_append, append_assoc]
    refine reads_declaration.2 ⟨_, _, rfl, ?_⟩
    rw [hkind]
    exact ⟨_, _, _, reads_condition_of_phrase stop hcondition _, hblock rest, rfl⟩
  | ret hkind hclosed | print hkind hclosed =>
    refine ⟨_, rfl, fun rest _ => reads_declaration.2 ⟨_, _, rfl, ?_⟩⟩
    rw [hkind]
    exact ⟨_, reads_closedExpression_of_phrase stop hclosed rest, rfl⟩
  | nested hbuilds ih =>
    refine ⟨_, rfl, fun rest _ => ?_⟩
    have hblock := ih rest
    obtain ⟨brace, mid, heq, hkind, -⟩ := reads_block.1 hblock
    refine reads_declaration.2 ⟨brace, mid, heq, ?_⟩
    rw [hkind]
    exact ⟨_, hblock, rfl⟩
  | expression hclosed =>
    exact ⟨_, rfl, fun rest _ => reads_declaration_of_closed stop hclosed rest⟩
  | ifThen hkind hcondition _ hblock =>
    refine ⟨_, _, _, rfl, rfl, hkind, fun rest hends => ?_⟩
    rw [append_assoc]
    exact reads_conditional.2 ⟨_, _, reads_condition_of_phrase stop hcondition _, _, _,
      hblock rest, .inl ⟨hends, rfl, rfl⟩⟩
  | ifElse hkind hcondition _ helse hpart hbuilds hblock halternative =>
    refine ⟨_, _, _, rfl, rfl, hkind, fun rest hends => ?_⟩
    rw [append_assoc, append_assoc, cons_append]
    refine reads_conditional.2 ⟨_, _, reads_condition_of_phrase stop hcondition _, _, _,
      hblock _, .inr ?_⟩
    -- the parser tells `else if` from a block by the token behind `else`
    rcases hpart with rfl | rfl
    · obtain ⟨s, keyword, more, rfl, rfl, hif, hread⟩ := halternative
      exact ⟨_, keyword, _, rfl, helse, .inl ⟨hif, s, hread rest hends, rfl⟩⟩
    · have hread := halternative rest
      obtain ⟨brace, mid, heq, hbrace, -⟩ := reads_block.1 hread
      rw [heq] at hread ⊢
      exact ⟨_, brace, mid, rfl, helse, .inr ⟨by rw [hbrace]; decide, _, hread, rfl⟩⟩
  | block hbrace _ hbrace' hitems =>
    intro rest
    rw [cons_append, append_assoc]
    exact reads_block.2 ⟨_, _, rfl, hbrace, hitems.2 _ rest hbrace'⟩
  | noItems =>
    exact ⟨program_eq_ok.2 (.inl ⟨rfl, rfl⟩), fun brace rest hbrace =>
      reads_blockItems.2 ⟨brace, rest, rfl, .inl ⟨hbrace, rfl, rfl⟩⟩⟩
  | stray hsemi _ hitems =>
    exact ⟨program_eq_ok.2 (.inr ⟨_, _, rfl, .inl ⟨hsemi, hitems.1⟩⟩), fun brace rest hbrace =>
      reads_blockItems.2 ⟨_, _, rfl, .inr (.inl ⟨hsemi, hitems.2 brace rest hbrace⟩)⟩⟩
  | item hfirst hbuilds ih hitems =>
    obtain ⟨s, rfl, hread⟩ := ih
    obtain ⟨hempty, -⟩ | ⟨t, more, rfl, hkind⟩ := hfirst.exists_head
    · simp at hempty
    -- so the parser neither closes the block here nor skips the token
    have hfree : t.kind ≠ .rbrace ∧ t.kind ≠ .semi := by
      constructor <;> intro heq <;> rw [heq] at hkind <;> exact absurd hkind (by decide)
    constructor
    · have hends := hbuilds.endsIf endsIf_nil
      rw [append_nil] at hends
      exact program_eq_ok.2
        (.inr ⟨t, _, rfl, .inr ⟨hfree.2, s, _, _, hread _ hends, hitems.1, rfl⟩⟩)
    · intro brace rest hbrace
      rw [append_assoc]
      have hends := hbuilds.endsIf (endsIf_cons rest (by rw [hbrace]; decide))
      exact reads_blockItems.2 ⟨t, _, rfl, .inr (.inr ⟨hfree.1, hfree.2, s, _, _,
        hread _ hends, hitems.2 brace rest hbrace, rfl⟩)⟩
  | noMacroItems =>
    exact fun last rest hlast => reads_macroItems.2 ⟨last, rest, rfl, .inl ⟨hlast, rfl, rfl⟩⟩
  | macroItem hfirst hbuilds ih hitems =>
    intro last rest hlast
    obtain ⟨s, rfl, hread⟩ := ih
    obtain ⟨hempty, -⟩ | ⟨t, more, rfl, hkind⟩ := hfirst.exists_head
    · simp at hempty
    rw [append_assoc]
    have hends := hbuilds.endsIf (endsIf_cons rest (by rw [hlast]; decide))
    refine reads_macroItems.2 ⟨t, _, rfl, .inr ⟨?_, s, _, _,
      hread _ hends, hitems last rest hlast, rfl⟩⟩
    intro hend
    rw [hend] at hkind
    exact absurd hkind (by decide)

/-- **A program is read as what the grammar builds.** -/
theorem program_eq_ok_iff (hlegible : Legible tokens) :
    program stop tokens = .ok body ↔ Builds .items tokens body :=
  ⟨builds_of_program hlegible, fun h => (h.parses stop).1⟩

/-- Tokens from the lexer or from expansion: the end marker stands last and nowhere else, and every
literal token has a text of its kind. -/
structure WellFormed (tokens : List Token) : Prop where
  ended : ∃ body marker, tokens = body ++ [marker] ∧ marker.kind = .eof ∧
    ∀ t ∈ body, t.kind ≠ .eof
  legible : Legible tokens

end ImpMachine.Grammar

namespace ImpMachine

/-- **The parser accepts exactly its grammar.** It returns a program just when the tokens are that
program by the grammar, and no token list is two programs. -/
theorem parseProgram_iff_grammar {tokens : List Token} (h : Grammar.WellFormed tokens) :
    (∀ body, parseProgram tokens = .ok body ↔ Grammar.Program tokens body) ∧
      ∀ body body', Grammar.Program tokens body → Grammar.Program tokens body' → body = body' := by
  obtain ⟨⟨inner, marker, rfl, hmarker, hinner⟩, hlegible⟩ := h
  have haccepts : ∀ body, parseProgram (inner ++ [marker]) = .ok body ↔
      Grammar.Program (inner ++ [marker]) body := by
    intro body
    rw [parseProgram, Parser.content_append_marker hmarker hinner,
      Grammar.program_eq_ok_iff fun t ht => hlegible t (mem_append_left _ ht)]
    constructor
    · intro hbuilds
      exact ⟨inner, marker, rfl, hmarker, hbuilds⟩
    · rintro ⟨inner', marker', heq, -, hbuilds⟩
      obtain ⟨rfl, -⟩ := append_inj' heq rfl
      exact hbuilds
  refine ⟨haccepts, fun body body' hbody hbody' => ?_⟩
  have heq := (haccepts body).2 hbody
  rw [(haccepts body').2 hbody'] at heq
  cases heq
  rfl

/-- `x = a - b - (-3);`, where the number is the counter of an unrolled loop. -/
def differenceTokens : List Token :=
  [⟨.ident, "x", 1, 1, 1⟩, ⟨.assign, "=", 1, 3, 1⟩, ⟨.ident, "a", 1, 5, 1⟩,
    ⟨.minus, "-", 1, 7, 1⟩, ⟨.ident, "b", 1, 9, 1⟩, ⟨.minus, "-", 1, 11, 1⟩,
    ⟨.integer, "-3", 1, 13, 1⟩, ⟨.semi, ";", 1, 14, 1⟩, ⟨.eof, "", 1, 15, 0⟩]

theorem differenceTokens_wellFormed : Grammar.WellFormed differenceTokens := by
  constructor
  · exact ⟨differenceTokens.dropLast, _, rfl, rfl, by decide⟩
  · intro t ht
    simp only [differenceTokens, mem_cons, not_mem_nil, or_false] at ht
    rcases ht with rfl | rfl | rfl | rfl | rfl | rfl | rfl | rfl | rfl
    case inr.inr.inr.inr.inr.inr.inl => exact fun _ => .inr ⟨rfl, -3, by decide⟩
    all_goals exact fun h => absurd h (by decide)

/-- The derivation gives the parser's answer: subtraction groups to the left. -/
theorem parseProgram_iff_grammar_difference :
    Grammar.WellFormed differenceTokens ∧
      parseProgram differenceTokens = .ok [.expr (.assign "x"
        (.binary .sub (.binary .sub (.var "a") (.var "b")) (.literal (.integer (-3)))))] := by
  refine ⟨differenceTokens_wellFormed,
    ((parseProgram_iff_grammar differenceTokens_wellFormed).1 _).2 ?_⟩
  have hx : Grammar.Derives .prefixed [⟨.ident, "x", 1, 1, 1⟩] _ := .tighter rfl (.var rfl)
  have ha : Grammar.Derives .prefixed [⟨.ident, "a", 1, 5, 1⟩] _ := .tighter rfl (.var rfl)
  have hb : Grammar.Derives .prefixed [⟨.ident, "b", 1, 9, 1⟩] _ := .tighter rfl (.var rfl)
  have hn : Grammar.Derives .prefixed [⟨.integer, "-3", 1, 13, 1⟩] (.literal (.integer (-3))) :=
    .tighter rfl (.literal (.integer rfl (Decimal.denotes_wordText (-3))))
  have hfirst := @Grammar.Derives.join .sum _ _ _ ⟨.minus, "-", 1, 7, 1⟩ _ _ _ .minus rfl
    (ha.loosen (by decide)) (hb.loosen (by decide))
  have hsum := @Grammar.Derives.join .sum _ _ _ ⟨.minus, "-", 1, 11, 1⟩ _ _ _ .minus rfl
    hfirst (hn.loosen (by decide))
  have hvalue : Grammar.Derives .assignment _ _ := hsum.loosen (by decide)
  have hassign := @Grammar.Derives.assign _ _ ⟨.assign, "=", 1, 3, 1⟩ _ _
    (hx.loosen (by decide)) rfl hvalue
  have hclosed : Grammar.Closed _ _ :=
    ⟨_, ⟨.semi, ";", 1, 14, 1⟩, rfl, hassign, rfl⟩
  exact ⟨_, _, rfl, rfl, .item (.expression hclosed) .noItems⟩

end ImpMachine
