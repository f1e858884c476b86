import ImpMachine.Proofs.Grammar
import ImpMachine.Proofs.ParserSteps

/-!
# Expressions are parsed by the grammar

Soundness: what the parser reads is a phrase of the grammar (`sound`), by induction on the number
of tokens. Completeness: a phrase is read whole as long as the token behind it could not be part of
it (`Derives.parses`), by induction on its derivation. A chain of operators needs the second
statement in a form that leaves room for more operators of the same tier (`ChainsAt`).
-/

namespace ImpMachine.Grammar

open ImpMachine.Parser List

variable {t paren : Token} {tokens rest more front phrase : List Token} {kind : Token.Kind}
variable {value : Literal} {c : Connective} {height : Nat} {op : UnaryOp} {b e : Expr}
variable {level : Level}

/-! ## Literals -/

theorem literal?_of_isLiteral (h : IsLiteral t value) : literal? t = some (.ok value) := by
  cases h with
  | integer hkind hdenotes =>
    simp [literal?, hkind, (Decimal.readWord_eq_ok_iff hdenotes.head?_ne_plus).2 hdenotes]
  | float hkind htext hwhole hfraction =>
    simp [literal?, hkind, htext, Decimal.readReal_of_isNumeral hwhole hfraction]
  | string hkind | yes hkind | no hkind | null hkind => simp [literal?, hkind]
  | char hkind htext => simp [literal?, hkind, htext]

theorem IsLiteral.unaryOp?_eq_none (h : IsLiteral t value) : unaryOp? t.kind = none := by
  cases h with
  | integer hkind | float hkind | string hkind | char hkind | yes hkind | no hkind | null hkind =>
    rw [hkind]
    rfl

/-- A literal has the form that its kind asks for, but may be too large for a word. -/
theorem HasLiteralText.form (h : HasLiteralText t) :
    (t.kind = .integer → ∃ n, Decimal.Denotes t.text.toList n) ∧
      (t.kind = .float → ∃ whole fraction, t.text.toList = whole ++ '.' :: fraction ∧
        Decimal.IsNumeral whole ∧ Decimal.IsNumeral fraction) ∧
      (t.kind = .char → ∃ c, t.text.toList = [c]) := by
  refine ⟨fun hkind => ?_, fun hkind => ?_, fun hkind => ?_⟩ <;>
    rcases h (by simp [hkind]) with ⟨source, hlexeme⟩ | ⟨hinteger, n, htext⟩
  case refine_1.inr => exact htext ▸ ⟨_, Decimal.denotes_wordText n⟩
  case refine_2.inr | refine_3.inr => simp [hinteger] at hkind
  all_goals
    have hform := hlexeme.of_openKind (by simp [hkind, Lexer.openKinds])
    simp only [hkind, reduceCtorEq, true_and, false_and, or_false, false_or] at hform
  · exact ⟨_, .natural hform⟩
  · exact hform
  · exact hform

/-- The parser reads a literal as its value. -/
theorem isLiteral_of_literal? (htext : HasLiteralText t) (h : literal? t = some (.ok value)) :
    IsLiteral t value := by
  obtain ⟨hinteger, hfloat, hchar⟩ := htext.form
  unfold literal? at h
  split at h
  · rename_i hkind
    obtain ⟨m, hm⟩ := hinteger hkind
    split at h
    · rename_i n hn
      cases h
      exact .integer hkind ((Decimal.readWord_eq_ok_iff hm.head?_ne_plus).1 hn)
    · cases h
  · rename_i hkind
    obtain ⟨whole, fraction, hsplit, hwhole, hfraction⟩ := hfloat hkind
    rw [hsplit, Decimal.readReal_of_isNumeral hwhole hfraction] at h
    cases h
    exact .float hkind hsplit hwhole hfraction
  · rename_i hkind
    cases h
    exact .string hkind
  · rename_i hkind
    obtain ⟨c, hc⟩ := hchar hkind
    rw [hc] at h
    cases h
    exact .char hkind hc
  · rename_i hkind
    cases h
    exact .yes hkind
  · rename_i hkind
    cases h
    exact .no hkind
  · rename_i hkind
    cases h
    exact .null hkind
  · cases h

/-! ## Levels and tiers -/

/-- The level of the tiers below a height. -/
def Level.ofHeight : Nat → Level
  | 0 => .prefixed
  | 1 => .product
  | 2 => .sum
  | 3 => .comparison
  | 4 => .equality
  | 5 => .conjunction
  | _ => .disjunction

theorem tighter?_ofHeight (h : height < tiers) :
    (Level.ofHeight (height + 1)).tighter? = some (Level.ofHeight height) := by
  revert height
  decide

/-- The connectives of a tier join at its level. -/
theorem joins_of_connective? (h : connective? height kind = some c) :
    Joins (Level.ofHeight (height + 1)) kind c.apply := by
  unfold connective? at h
  split at h <;> cases h <;> constructor

theorem prefixes_of_unaryOp? (h : unaryOp? kind = some op) : Prefixes kind op := by
  unfold unaryOp? at h
  split at h <;> cases h <;> constructor

theorem unaryOp?_of_prefixes (h : Prefixes kind op) : unaryOp? kind = some op := by
  cases h <;> rfl

/-! ## Soundness -/

/-- Every literal token has a text of its kind. -/
def Legible (tokens : List Token) : Prop :=
  ∀ t ∈ tokens, HasLiteralText t

theorem Legible.tail (h : Legible (t :: more)) : Legible more :=
  fun u hu => h u (.tail _ hu)

theorem Legible.right (h : Legible (front ++ rest)) : Legible rest :=
  fun u hu => h u (mem_append_right _ hu)

/-- The tokens start with a phrase of the level, and `rest` is left. -/
def Starts (level : Level) (tokens : List Token) (e : Expr) (rest : List Token) : Prop :=
  ∃ phrase, tokens = phrase ++ rest ∧ Derives level phrase e

/-- The tokens start with phrases, commas between them and a closing parenthesis. -/
def StartsList (tokens : List Token) (args : List Expr) (rest : List Token) : Prop :=
  ∃ (pairs : List (List Token × Expr)) (phrases : List Token) (paren : Token),
    tokens = phrases ++ paren :: rest ∧ paren.kind = .rparen ∧
      args = pairs.map (·.2) ∧ Separated (pairs.map (·.1)) phrases ∧
      ∀ pair ∈ pairs, Derives .assignment pair.1 pair.2

/-- What the parser reads off the tokens are phrases. -/
structure Sound (stop : Token) (tokens : List Token) : Prop where
  expression {e : Expr} {rest : List Token} :
    Reads (expression stop tokens) e rest → Starts .assignment tokens e rest
  tier {height : Nat} {e : Expr} {rest : List Token} :
    height ≤ tiers → Reads (tier stop height tokens) e rest →
      Starts (Level.ofHeight height) tokens e rest
  argumentList {args : List Expr} {rest : List Token} :
    Reads (argumentList stop tokens) args rest → StartsList tokens args rest ∧ args ≠ []

section Step

variable {stop : Token} {bound : Nat}
  (ih : ∀ shorter : List Token, shorter.length < bound → Legible shorter → Sound stop shorter)
include ih

/-- What a chain of operators reads is one phrase of its level. -/
theorem starts_tierRest {left : Expr} (hheight : height < tiers) (hlength : tokens.length ≤ bound)
    (hlegible : Legible tokens) (hfront : Derives (Level.ofHeight (height + 1)) front left)
    (h : Continues (tierRest stop height left tokens) e rest) :
    Starts (Level.ofHeight (height + 1)) (front ++ tokens) e rest := by
  -- on the tokens left, with the chain read so far as the left side
  induction hn : tokens.length using Nat.strong_induction_on generalizing left front tokens with
  | _ n step =>
    rcases continues_tierRest.1 h with ⟨rfl, rfl, -⟩ |
      ⟨t, more, c, right, mid, rfl, hc, hright, hrest⟩
    · exact ⟨front, rfl, hfront⟩
    · simp only [length_cons] at hlength hn
      obtain ⟨phrase, rfl, hphrase⟩ :=
        (ih more (by omega) hlegible.tail).tier (by omega) hright
      have hjoined := Derives.join (joins_of_connective? hc) (tighter?_ofHeight hheight) hfront
        hphrase
      have hmid := hright.shorter
      obtain ⟨whole, heq, hwhole⟩ :=
        step mid.length (by omega) (by omega) hlegible.tail.right hjoined hrest rfl
      exact ⟨whole, by simpa using heq, hwhole⟩

/-- What is read as a primary expression is one. -/
theorem starts_primary (hlength : more.length < bound) (hlegible : Legible (t :: more))
    (h : Reads (primary stop t more) e rest) : Starts .primary (t :: more) e rest := by
  rcases reads_primary.1 h with ⟨value, hvalue, rfl, rfl⟩ | ⟨hkind, -, rfl, rfl⟩ |
    ⟨hkind, paren, others, args, rfl, hparen, hargs, rfl⟩ | ⟨hkind, paren, hinner, hparen⟩
  · exact ⟨[t], rfl, .literal (isLiteral_of_literal? (hlegible t (.head _)) hvalue)⟩
  · exact ⟨[t], rfl, .var hkind⟩
  · simp only [length_cons] at hlength
    obtain ⟨u, more, rfl, ⟨hu, rfl, rfl⟩ | ⟨-, hlist⟩⟩ := reads_arguments.1 hargs
    · exact ⟨[t, paren, u], rfl, @Derives.call t paren u [] [] hkind hparen (by simp) .nil hu⟩
    · obtain ⟨⟨pairs, phrases, u', heq, hu', rfl, hseparated, hpairs⟩, -⟩ :=
        (ih _ (by omega) hlegible.tail.tail).argumentList hlist
      refine ⟨t :: paren :: (phrases ++ [u']), by simp [heq], ?_⟩
      exact .call hkind hparen hpairs hseparated hu'
  · obtain ⟨phrase, rfl, hphrase⟩ := (ih more hlength hlegible.tail).expression hinner
    exact ⟨t :: (phrase ++ [paren]), by simp, .group hkind hphrase hparen⟩

theorem starts_unary (hlength : tokens.length ≤ bound) (hlegible : Legible tokens)
    (h : Reads (unary stop tokens) e rest) : Starts .prefixed tokens e rest := by
  obtain ⟨t, more, rfl, ⟨op, operand, hop, hoperand, rfl⟩ | ⟨-, hprimary⟩⟩ := reads_unary.1 h
  · obtain ⟨phrase, rfl, hphrase⟩ :=
      (ih more hlength hlegible.tail).tier (Nat.zero_le _) (reads_tier_zero.2 hoperand)
    exact ⟨t :: phrase, rfl, .operator (prefixes_of_unaryOp? hop) hphrase⟩
  · obtain ⟨phrase, heq, hphrase⟩ := starts_primary ih hlength hlegible hprimary
    exact ⟨phrase, heq, .tighter rfl hphrase⟩

theorem starts_tier (hheight : height ≤ tiers) (hlength : tokens.length ≤ bound)
    (hlegible : Legible tokens) (h : Reads (tier stop height tokens) e rest) :
    Starts (Level.ofHeight height) tokens e rest := by
  induction height generalizing e rest with
  | zero => exact starts_unary ih hlength hlegible (reads_tier_zero.1 h)
  | succ height step =>
    obtain ⟨left, mid, hleft, hrest⟩ := reads_tier_succ.1 h
    obtain ⟨front, rfl, hfront⟩ := step (by omega) hleft
    have hmid := hleft.shorter
    exact starts_tierRest ih hheight (by omega) hlegible.right
      (.tighter (tighter?_ofHeight hheight) hfront) hrest

/-- **What is read as an expression is derived as one.** -/
theorem starts_expression (hlength : tokens.length ≤ bound) (hlegible : Legible tokens)
    (h : Reads (expression stop tokens) e rest) : Starts .assignment tokens e rest := by
  obtain ⟨target, mid, htarget, hcases⟩ := reads_expression.1 h
  have hmid := htarget.shorter
  obtain ⟨front, rfl, hfront⟩ := starts_tier ih (Nat.le_refl _) hlength hlegible htarget
  rcases hcases with ⟨rfl, rfl, -⟩ | ⟨t, more, name, value, rfl, ht, rfl, hvalue, rfl⟩
  · exact ⟨front, rfl, .tighter rfl hfront⟩
  · simp only [length_cons] at hmid
    obtain ⟨phrase, rfl, hphrase⟩ :=
      (ih more (by omega) hlegible.right.tail).expression hvalue
    exact ⟨front ++ t :: phrase, by simp, .assign hfront ht hphrase⟩

/-- What is read as arguments is a list of expressions. -/
theorem startsList_argumentList {args : List Expr} (hlength : tokens.length ≤ bound)
    (hlegible : Legible tokens)
    (h : Reads (argumentList stop tokens) args rest) : StartsList tokens args rest ∧ args ≠ [] := by
  obtain ⟨arg, t, more, harg, hcases⟩ := reads_argumentList.1 h
  have hmore := harg.shorter
  obtain ⟨phrase, rfl, hphrase⟩ := starts_expression ih hlength hlegible harg
  rcases hcases with ⟨ht, later, hlater, rfl⟩ | ⟨ht, rfl, rfl⟩
  · simp only [length_cons] at hmore
    obtain ⟨⟨pairs, phrases, paren, rfl, hparen, rfl, hseparated, hpairs⟩, hne⟩ :=
      (ih more (by omega) hlegible.right.tail).argumentList hlater
    refine ⟨⟨(phrase, arg) :: pairs, phrase ++ t :: phrases, paren, by simp, hparen, rfl, ?_, ?_⟩,
      by simp⟩
    · cases pairs with
      | nil => exact absurd rfl hne
      | cons pair pairs => exact .cons ht hseparated
    · exact forall_mem_cons.2 ⟨hphrase, hpairs⟩
  · exact ⟨⟨[(phrase, arg)], phrase, t, rfl, ht, rfl, .single, by simpa using hphrase⟩, by simp⟩

end Step

/-- **What is read is a phrase.** -/
theorem sound (stop : Token) (tokens : List Token) (hlegible : Legible tokens) :
    Sound stop tokens := by
  induction hn : tokens.length using Nat.strong_induction_on generalizing tokens with
  | _ n ih =>
    have hshorter : ∀ shorter : List Token, shorter.length < tokens.length → Legible shorter →
        Sound stop shorter :=
      fun shorter hlt hshorter => ih shorter.length (hn ▸ hlt) shorter hshorter rfl
    exact ⟨starts_expression hshorter le_rfl hlegible,
      fun hheight => starts_tier hshorter hheight le_rfl hlegible,
      startsList_argumentList hshorter le_rfl hlegible⟩

/-! ## Completeness -/

/-- No token of this kind continues an expression of the tiers below `height`. -/
def EndsAt (height : Nat) (kind : Token.Kind) : Prop :=
  kind ≠ .lparen ∧ ∀ lower < height, connective? lower kind = none

instance (height : Nat) (kind : Token.Kind) : Decidable (EndsAt height kind) :=
  inferInstanceAs (Decidable (_ ∧ _))

/-- What follows does not continue an expression of the tiers below `height`. -/
def Ends (height : Nat) (rest : List Token) : Prop :=
  ∀ t, rest.head? = some t → EndsAt height t.kind

/-- What follows does not continue any expression. -/
def EndsPhrase (rest : List Token) : Prop :=
  Ends tiers rest ∧ ∀ t, rest.head? = some t → t.kind ≠ .assign

theorem Ends.mono {lower : Nat} (h : Ends height rest) (hle : lower ≤ height) : Ends lower rest :=
  fun t ht => ⟨(h t ht).1, fun g hg => (h t ht).2 g (Nat.lt_of_lt_of_le hg hle)⟩

theorem endsPhrase_nil : EndsPhrase [] := by
  constructor <;> intro t ht <;> cases ht

theorem endsPhrase_cons (h : t.kind ∈ [Token.Kind.rparen, .comma, .semi]) :
    EndsPhrase (t :: rest) := by
  have hends : ∀ kind ∈ [Token.Kind.rparen, .comma, .semi],
      EndsAt tiers kind ∧ kind ≠ .assign := by decide
  constructor <;> intro u hu <;> cases hu
  · exact (hends _ h).1
  · exact (hends _ h).2

theorem endsAt_of_connective? (h : connective? height kind = some c) : EndsAt height kind := by
  unfold connective? at h
  split at h <;> cases h <;> decide

section Complete

variable (stop : Token) {pairs : List (List Token × Expr)} {right : List Token} {next : Level}

/-- The phrase is read at the height, whatever follows it. -/
def PlainAt (height : Nat) (phrase : List Token) (e : Expr) : Prop :=
  ∀ rest, Ends height rest → Reads (tier stop height (phrase ++ rest)) e rest

/-- The phrase is read as the left side of a chain of the tier, which goes on behind it. -/
def ChainsAt (height : Nat) (phrase : List Token) (e : Expr) : Prop :=
  ∀ rest value rest', Ends height rest → Continues (tierRest stop height e rest) value rest' →
    Reads (tier stop (height + 1) (phrase ++ rest)) value rest'

/-- The phrase is read as a whole expression. -/
def ReadsWhole (phrase : List Token) (e : Expr) : Prop :=
  ∀ rest, EndsPhrase rest → Reads (expression stop (phrase ++ rest)) e rest

/-- How phrases of each level are read. -/
def Level.Parses : Level → List Token → Expr → Prop
  | .assignment => ReadsWhole stop
  | .disjunction => ChainsAt stop 5
  | .conjunction => ChainsAt stop 4
  | .equality => ChainsAt stop 3
  | .comparison => ChainsAt stop 2
  | .sum => ChainsAt stop 1
  | .product => ChainsAt stop 0
  | .prefixed => PlainAt stop 0
  | .primary => PlainAt stop 0

variable {stop}

theorem ChainsAt.plain (h : ChainsAt stop height phrase e) : PlainAt stop (height + 1) phrase e :=
  fun rest hends => h rest e rest (hends.mono (Nat.le_succ _))
    (continues_tierRest.2 (.inl ⟨rfl, rfl, fun t ht => (hends t ht).2 height (Nat.lt_succ_self _)⟩))

theorem PlainAt.chains (h : PlainAt stop height phrase e) : ChainsAt stop height phrase e :=
  fun rest _ _ hends hrest => reads_tier_succ.2 ⟨e, rest, h rest hends, hrest⟩

theorem ChainsAt.join (hleft : ChainsAt stop height phrase e)
    (hc : connective? height t.kind = some c) (hright : PlainAt stop height right b) :
    ChainsAt stop height (phrase ++ t :: right) (c.apply e b) := by
  intro rest value rest' hends hrest
  rw [append_assoc, cons_append]
  -- the left side goes on with the operator, which ends every tighter phrase
  refine hleft _ value rest' ?_ ?_
  · intro u hu
    cases hu
    exact endsAt_of_connective? hc
  · exact continues_tierRest.2
      (.inr ⟨t, right ++ rest, c, b, rest, rfl, hc, hright rest hends, hrest⟩)

theorem PlainAt.whole (h : PlainAt stop tiers phrase e) : ReadsWhole stop phrase e :=
  fun rest hends => reads_expression.2 ⟨e, rest, h rest hends.1, .inl ⟨rfl, rfl, hends.2⟩⟩

/-- What is parsed at a level is parsed at looser ones. -/
theorem Level.Parses.loosen (hlevel : level.tighter? = some next) (h : next.Parses stop phrase e) :
    level.Parses stop phrase e := by
  cases level with
  | assignment =>
    cases hlevel
    exact PlainAt.whole (ChainsAt.plain h)
  | disjunction | conjunction | equality | comparison | sum =>
    cases hlevel
    exact PlainAt.chains (ChainsAt.plain h)
  | product =>
    cases hlevel
    exact PlainAt.chains h
  | prefixed =>
    cases hlevel
    exact h
  | primary => cases hlevel

/-- A connective joins what is parsed on its sides. -/
theorem Level.Parses.join {tree : Expr → Expr → Expr} (hjoins : Joins level kind tree)
    (hkind : t.kind = kind) (hlevel : level.tighter? = some next)
    (hleft : level.Parses stop phrase e) (hright : next.Parses stop right b) :
    level.Parses stop (phrase ++ t :: right) (tree e b) := by
  cases hjoins with
  | star | slash | percent =>
    cases hlevel
    exact ChainsAt.join hleft (by rw [hkind]; rfl) hright
  | or | and | eq | notEq | lt | gt | ltEq | gtEq | plus | minus =>
    cases hlevel
    exact ChainsAt.join hleft (by rw [hkind]; rfl) (ChainsAt.plain hright)

/-- Expressions with commas between them are read one by one. -/
theorem reads_argumentList_of_separated (rest : List Token) (hne : pairs ≠ [])
    (hseparated : Separated (pairs.map (·.1)) tokens)
    (hpairs : ∀ pair ∈ pairs, ReadsWhole stop pair.1 pair.2) (hparen : paren.kind = .rparen) :
    Reads (argumentList stop (tokens ++ paren :: rest)) (pairs.map (·.2)) rest := by
  induction pairs generalizing tokens with
  | nil => exact absurd rfl hne
  | cons pair pairs ih =>
    obtain ⟨hpair, hpairs⟩ := forall_mem_cons.1 hpairs
    cases pairs with
    | nil =>
      cases hseparated
      exact reads_argumentList.2 ⟨pair.2, paren, rest,
        hpair _ (endsPhrase_cons (by simp [hparen])), .inr ⟨hparen, rfl, rfl⟩⟩
    | cons next pairs =>
      obtain ⟨_, _⟩ | _ | ⟨hcomma, hseparated⟩ := hseparated
      rename_i tokens comma
      rw [append_assoc, cons_append]
      exact reads_argumentList.2 ⟨pair.2, comma, tokens ++ paren :: rest,
        hpair _ (endsPhrase_cons (by simp [hcomma])),
        .inl ⟨hcomma, _, ih (by simp) hseparated hpairs, rfl⟩⟩

theorem plainAt_of_primary (hop : unaryOp? t.kind = none)
    (h : ∀ rest, Ends 0 rest → Reads (primary stop t (more ++ rest)) e rest) :
    PlainAt stop 0 (t :: more) e :=
  fun rest hends => reads_tier_zero.2
    (reads_unary.2 ⟨t, more ++ rest, rfl, .inr ⟨hop, h rest hends⟩⟩)

/-- Arguments up to the closing parenthesis, possibly none. -/
theorem reads_arguments_of_separated (rest : List Token)
    (hseparated : Separated (pairs.map (·.1)) tokens)
    (hderives : ∀ pair ∈ pairs, Derives .assignment pair.1 pair.2)
    (hpairs : ∀ pair ∈ pairs, ReadsWhole stop pair.1 pair.2) (hparen : paren.kind = .rparen) :
    Reads (arguments stop (tokens ++ paren :: rest)) (pairs.map (·.2)) rest := by
  cases pairs with
  | nil =>
    cases hseparated
    exact reads_arguments.2 ⟨paren, rest, rfl, .inl ⟨hparen, rfl, rfl⟩⟩
  | cons pair pairs =>
    -- an argument does not start with the closing parenthesis
    obtain ⟨t, more, hpiece, hkind⟩ := (hderives pair (.head _)).exists_head
    have hlist := reads_argumentList_of_separated rest (by simp) hseparated hpairs hparen
    obtain ⟨others, htokens⟩ := hseparated.starts
    refine reads_arguments.2 ⟨t, more ++ others ++ paren :: rest, ?_, .inr ⟨?_, hlist⟩⟩
    · simp only [← htokens, hpiece, cons_append]
    intro hclosing
    rw [hclosing] at hkind
    exact absurd hkind (by decide)

end Complete

/-- **A phrase is read whole.** -/
theorem Derives.parses (h : Derives level phrase e) (stop : Token) :
    level.Parses stop phrase e := by
  induction h with
  | tighter hlevel _ ih => exact ih.loosen hlevel
  | assign _ hequals _ htarget hvalue =>
    intro rest hends
    rw [append_assoc, cons_append]
    -- an equals sign ends the target, whatever the target is made of
    refine reads_expression.2 ⟨_, _, ChainsAt.plain htarget _ ?_,
      .inr ⟨_, _, _, _, rfl, hequals, rfl, hvalue rest hends, rfl⟩⟩
    intro t ht
    cases ht
    rw [hequals]
    decide
  | join hjoins hlevel _ _ hleft hright => exact hleft.join hjoins rfl hlevel hright
  | operator hop _ ih =>
    intro rest hends
    exact reads_tier_zero.2 (reads_unary.2 ⟨_, _, rfl, .inl ⟨_, _, unaryOp?_of_prefixes hop,
      reads_tier_zero.1 (ih rest hends), rfl⟩⟩)
  | literal hliteral =>
    refine plainAt_of_primary hliteral.unaryOp?_eq_none fun rest _ => ?_
    exact reads_primary.2 (.inl ⟨_, literal?_of_isLiteral hliteral, rfl, rfl⟩)
  | var hkind =>
    refine plainAt_of_primary (by rw [hkind]; rfl) fun rest hends => ?_
    exact reads_primary.2 (.inr (.inl ⟨hkind, fun u hu => (hends u hu).1, rfl, rfl⟩))
  | call hkind hparen hargs hseparated hparen' ih =>
    refine plainAt_of_primary (by rw [hkind]; rfl) fun rest _ => ?_
    rw [cons_append, append_assoc]
    exact reads_primary.2 (.inr (.inr (.inl ⟨hkind, _, _, _, rfl, hparen,
      reads_arguments_of_separated rest hseparated hargs ih hparen', rfl⟩)))
  | group hparen _ hparen' ih =>
    refine plainAt_of_primary (by rw [hparen]; rfl) fun rest _ => ?_
    refine reads_primary.2 (.inr (.inr (.inr ⟨hparen, _, ?_, hparen'⟩)))
    rw [append_assoc]
    exact ih _ (endsPhrase_cons (by simp [hparen']))

/-- A phrase that fills the whole input is its expression. -/
theorem parseExpression_of_derives {marker : Token}
    (h : Derives .assignment phrase e) (hmarker : marker.kind = .eof)
    (hphrase : ∀ t ∈ phrase, t.kind ≠ .eof) : parseExpression (phrase ++ [marker]) = .ok e := by
  have hread : Reads (expression (endMarker (phrase ++ [marker])) (content (phrase ++ [marker])))
      e [] := by
    have hwhole := h.parses marker [] endsPhrase_nil
    rw [append_nil] at hwhole
    rwa [content_append_marker hmarker hphrase, endMarker_append_marker hmarker hphrase]
  obtain ⟨_, hread⟩ := hread
  rw [parseExpression, hread]
  rfl

end ImpMachine.Grammar
