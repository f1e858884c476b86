import ImpMachine.Tree.Parser
import ImpMachine.Result

/-!
# The parser, step by step

What each function of the parser reads off a token list and what it leaves, as an equivalence that
opens the function once: a value is read exactly when the tokens start in one of the stated ways.
The lengths that the result types carry for the recursion to end play no part here (`Reads`,
`Continues`).
-/

namespace ImpMachine.Parser

variable {stop t : Token} {tokens rest tokens' mid : List Token} {α β : Type} {e : Expr}
variable {items : List Stmt} {s : Stmt} {names : List String} {a b : α}
variable {x : Except ParseError (Parsed tokens α)} {h : mid.length ≤ tokens.length} {height : Nat}
variable {args : List Expr}

/-- The computation reads `value` off the front of `tokens` and leaves `rest`. -/
def Reads (x : Except ParseError (Parsed tokens α)) (value : α) (rest : List Token) : Prop :=
  ∃ h, x = .ok ⟨value, rest, h⟩

/-- The computation reads on to `value` and leaves `rest`. -/
def Continues (x : Except ParseError (Extended tokens α)) (value : α) (rest : List Token) : Prop :=
  ∃ h, x = .ok ⟨value, rest, h⟩

/-- What is left is shorter. -/
theorem Reads.shorter {value : α} (h : Reads x value rest) : rest.length < tokens.length :=
  h.1

/-! ## Sequencing -/

theorem exists_iff_and {p r : Prop} {q : p → Prop} (h : ∀ hp, q hp ↔ r) : (∃ hp, q hp) ↔ p ∧ r :=
  ⟨fun ⟨hp, hq⟩ => ⟨hp, (h hp).1 hq⟩, fun ⟨hp, hr⟩ => ⟨hp, (h hp).2 hr⟩⟩

/-- A sequence succeeds when both computations do, one behind the other. -/
theorem exists_bind_eq_ok_iff {ρ σ : Type} {x : Except ParseError ρ} {f : ρ → Except ParseError σ}
    {bound : List Token → Prop} {pack : α → ∀ mid, bound mid → ρ} {p : Prop} {result : p → σ}
    (hpack : ∀ r, ∃ a mid h, r = pack a mid h) :
    (∃ hp, x >>= f = .ok (result hp)) ↔
      ∃ a mid, ∃ h : ∃ hb, x = .ok (pack a mid hb), ∃ hp, f (pack a mid h.1) = .ok (result hp) := by
  simp only [bind_eq_ok]
  constructor
  · rintro ⟨hp, r, hx, hf⟩
    obtain ⟨a, mid, h, rfl⟩ := hpack r
    exact ⟨a, mid, ⟨h, hx⟩, hp, hf⟩
  · rintro ⟨a, mid, ⟨h, hx⟩, hp, hf⟩
    exact ⟨hp, pack a mid h, hx, hf⟩

/-- Reading one thing and then another. -/
theorem reads_bind {f : Parsed tokens α → Except ParseError (Parsed tokens' β)} {b : β} :
    Reads (x >>= f) b rest ↔ ∃ a mid, ∃ h : Reads x a mid, Reads (f ⟨a, mid, h.1⟩) b rest :=
  exists_bind_eq_ok_iff fun r => ⟨r.1, r.2, r.3, rfl⟩

theorem reads_bind_extended {x : Except ParseError (Extended tokens α)}
    {f : Extended tokens α → Except ParseError (Parsed tokens' β)} {b : β} :
    Reads (x >>= f) b rest ↔ ∃ a mid, ∃ h : Continues x a mid, Reads (f ⟨a, mid, h.1⟩) b rest :=
  exists_bind_eq_ok_iff fun r => ⟨r.1, r.2, r.3, rfl⟩

theorem continues_bind {f : Parsed tokens α → Except ParseError (Extended tokens' β)} {b : β} :
    Continues (x >>= f) b rest ↔ ∃ a mid, ∃ h : Reads x a mid, Continues (f ⟨a, mid, h.1⟩) b rest :=
  exists_bind_eq_ok_iff fun r => ⟨r.1, r.2, r.3, rfl⟩

theorem continues_bind_extended {x : Except ParseError (Extended tokens α)}
    {f : Extended tokens α → Except ParseError (Extended tokens' β)} {b : β} :
    Continues (x >>= f) b rest ↔
      ∃ a mid, ∃ h : Continues x a mid, Continues (f ⟨a, mid, h.1⟩) b rest :=
  exists_bind_eq_ok_iff fun r => ⟨r.1, r.2, r.3, rfl⟩

theorem reads_ok {h : mid.length < tokens.length} :
    Reads (.ok ⟨a, mid, h⟩ : Except ParseError (Parsed tokens α)) b rest ↔ b = a ∧ rest = mid := by
  constructor
  · rintro ⟨_, heq⟩
    cases heq
    exact ⟨rfl, rfl⟩
  · rintro ⟨rfl, rfl⟩
    exact ⟨h, rfl⟩

theorem reads_pure {h : mid.length < tokens.length} :
    Reads (pure ⟨a, mid, h⟩ : Except ParseError (Parsed tokens α)) b rest ↔ b = a ∧ rest = mid :=
  reads_ok

theorem continues_ok :
    Continues (.ok ⟨a, mid, h⟩ : Except ParseError (Extended tokens α)) b rest ↔
      b = a ∧ rest = mid := by
  constructor
  · rintro ⟨_, heq⟩
    cases heq
    exact ⟨rfl, rfl⟩
  · rintro ⟨rfl, rfl⟩
    exact ⟨h, rfl⟩

theorem continues_pure :
    Continues (pure ⟨a, mid, h⟩ : Except ParseError (Extended tokens α)) b rest ↔
      b = a ∧ rest = mid :=
  continues_ok

theorem not_reads_error {e : ParseError} :
    ¬ Reads (.error e : Except ParseError (Parsed tokens α)) b rest :=
  fun h => by cases h.2

theorem not_reads_throw {e : ParseError} :
    ¬ Reads (throw e : Except ParseError (Parsed tokens α)) b rest :=
  not_reads_error

/-- A token of the kind asked for is read. -/
theorem reads_expect {kind : Token.Kind} :
    Reads (expect stop kind tokens) t rest ↔ tokens = t :: rest ∧ t.kind = kind := by
  unfold expect
  split
  · rename_i u more
    split
    · rename_i hu
      simp only [reads_ok, List.cons.injEq]
      constructor
      · rintro ⟨rfl, rfl⟩
        exact ⟨⟨rfl, rfl⟩, hu⟩
      · rintro ⟨⟨rfl, rfl⟩, -⟩
        exact ⟨rfl, rfl⟩
    · rename_i hu
      simp only [not_reads_error, List.cons.injEq, false_iff, not_and]
      rintro ⟨rfl, rfl⟩ hkind
      exact hu hkind
  · simp [not_reads_error]

/-! ## Expressions -/

/-- An expression, or an assignment to a variable. -/
theorem reads_expression :
    Reads (expression stop tokens) e rest ↔
      ∃ target mid, Reads (tier stop tiers tokens) target mid ∧
        (e = target ∧ rest = mid ∧ (∀ t, mid.head? = some t → t.kind ≠ .assign) ∨
          ∃ t more name value, mid = t :: more ∧ t.kind = .assign ∧ target = .var name ∧
            Reads (expression stop more) value rest ∧ e = .assign name value) := by
  rw [expression]
  simp only [reads_bind]
  refine exists_congr fun target => exists_congr fun mid => exists_iff_and fun _ => ?_
  cases mid with
  | nil => simp only [reads_pure]; grind
  | cons t more =>
    by_cases ht : t.kind = .assign
    · cases target with
      | var name => simp only [ht, if_true, reads_bind, reads_pure, exists_prop]; grind
      | literal | binary | unary | logical | call | assign =>
        simp only [ht, if_true, reads_bind, not_reads_throw, exists_prop]; grind
    · simp only [ht, if_false, reads_pure]; grind

theorem reads_tier_zero : Reads (tier stop 0 tokens) e rest ↔ Reads (unary stop tokens) e rest := by
  rw [tier]

/-- A chain of operators of one height. -/
theorem reads_tier_succ :
    Reads (tier stop (height + 1) tokens) e rest ↔
      ∃ left mid, Reads (tier stop height tokens) left mid ∧
        Continues (tierRest stop height left mid) e rest := by
  rw [tier]
  simp only [reads_bind, reads_bind_extended, reads_pure, exists_prop]
  constructor
  · rintro ⟨left, mid, hleft, _, _, hrest, rfl, rfl⟩
    exact ⟨left, mid, hleft, hrest⟩
  · rintro ⟨left, mid, hleft, hrest⟩
    exact ⟨left, mid, hleft, _, _, hrest, rfl, rfl⟩

/-- A chain ends, or goes on with an operator and its right side. -/
theorem continues_tierRest {left : Expr} :
    Continues (tierRest stop height left tokens) e rest ↔
      (e = left ∧ rest = tokens ∧
          ∀ t, tokens.head? = some t → connective? height t.kind = none) ∨
        ∃ t more c right mid, tokens = t :: more ∧ connective? height t.kind = some c ∧
          Reads (tier stop height more) right mid ∧
          Continues (tierRest stop height (c.apply left right) mid) e rest := by
  rw [tierRest.eq_def]
  cases tokens with
  | nil => simp [continues_ok]
  | cons t more =>
    cases hc : connective? height t.kind with
    | none => simp [hc, continues_ok]
    | some c =>
      simp only [hc, continues_bind, continues_bind_extended, continues_pure, exists_prop]
      grind

/-- Signs in front of a primary expression. -/
theorem reads_unary :
    Reads (unary stop tokens) e rest ↔
      ∃ t more, tokens = t :: more ∧
        ((∃ op operand, unaryOp? t.kind = some op ∧ Reads (unary stop more) operand rest ∧
            e = .unary op operand) ∨
          unaryOp? t.kind = none ∧ Reads (primary stop t more) e rest) := by
  rw [unary.eq_def]
  cases tokens with
  | nil => simp [not_reads_error]
  | cons t more =>
    cases hop : unaryOp? t.kind with
    | none => simp only [hop]; grind
    | some op => simp only [hop, reads_bind, reads_pure, exists_prop]; grind

/-- A literal, a variable, a call, or a parenthesised expression. -/
theorem reads_primary {more : List Token} :
    Reads (primary stop t more) e rest ↔
      (∃ value, literal? t = some (.ok value) ∧ e = .literal value ∧ rest = more) ∨
      (t.kind = .ident ∧ (∀ u, more.head? = some u → u.kind ≠ .lparen) ∧ e = .var t.text ∧
        rest = more) ∨
      (t.kind = .ident ∧ ∃ paren others args, more = paren :: others ∧ paren.kind = .lparen ∧
        Reads (arguments stop others) args rest ∧ e = .call t.text args) ∨
      (t.kind = .lparen ∧ ∃ paren, Reads (expression stop more) e (paren :: rest) ∧
        paren.kind = .rparen) := by
  rw [primary.eq_def]
  cases hliteral : literal? t with
  | some result =>
    have hkind : t.kind ≠ .ident ∧ t.kind ≠ .lparen := by
      constructor <;> intro hkind <;> simp [literal?, hkind] at hliteral
    cases result with
    | ok value => simp only [reads_ok]; grind
    | error => simp only [not_reads_error]; grind
  | none =>
    dsimp only
    split
    · rename_i hkind
      cases more with
      | nil => simp [hkind, reads_ok]
      | cons paren others =>
        by_cases hparen : paren.kind = .lparen
        · simp only [hparen, if_true, reads_bind, reads_pure, exists_prop]; grind
        · simp only [hparen, if_false, reads_ok]; grind
    · simp only [reads_bind, reads_expect, reads_pure, exists_prop]; grind
    · simp only [not_reads_error]; grind

theorem reads_arguments :
    Reads (arguments stop tokens) args rest ↔
      ∃ t more, tokens = t :: more ∧
        (t.kind = .rparen ∧ args = [] ∧ rest = more ∨
          t.kind ≠ .rparen ∧ Reads (argumentList stop tokens) args rest) := by
  rw [arguments.eq_def]
  cases tokens with
  | nil => simp [not_reads_error]
  | cons t more =>
    by_cases ht : t.kind = .rparen
    · simp only [ht, if_true, reads_ok]; grind
    · simp only [ht, if_false]; grind

/-- Arguments with commas between them. -/
theorem reads_argumentList :
    Reads (argumentList stop tokens) args rest ↔
      ∃ arg t more, Reads (expression stop tokens) arg (t :: more) ∧
        ((t.kind = .comma ∧ ∃ later, Reads (argumentList stop more) later rest ∧
            args = arg :: later) ∨
          t.kind = .rparen ∧ args = [arg] ∧ rest = more) := by
  rw [argumentList]
  simp only [reads_bind]
  refine exists_congr fun arg => ?_
  constructor
  · rintro ⟨mid, harg, h⟩
    cases mid with
    | nil => exact absurd h not_reads_throw
    | cons t more =>
      refine ⟨t, more, harg, ?_⟩
      dsimp only at h
      split at h
      · simp only [reads_bind, reads_pure, exists_prop] at h
        grind
      · split at h
        · simp only [reads_pure] at h
          grind
        · exact absurd h not_reads_throw
  · rintro ⟨t, more, harg, h⟩
    refine ⟨t :: more, harg, ?_⟩
    dsimp only
    split
    · simp only [reads_bind, reads_pure, exists_prop]
      grind
    · rw [if_pos (by grind)]
      simp only [reads_pure]
      grind

/-! ## Statements -/

theorem reads_condition :
    Reads (condition stop tokens) e rest ↔
      ∃ paren mid paren', tokens = paren :: mid ∧ paren.kind = .lparen ∧
        Reads (expression stop mid) e (paren' :: rest) ∧ paren'.kind = .rparen := by
  simp only [condition, reads_bind, reads_expect, reads_pure, exists_prop]
  grind

theorem reads_closedExpression :
    Reads (closedExpression stop tokens) e rest ↔
      ∃ semi, Reads (expression stop tokens) e (semi :: rest) ∧ semi.kind = .semi := by
  simp only [closedExpression, reads_bind, reads_expect, reads_pure, exists_prop]
  grind

theorem reads_variableDecl :
    Reads (variableDecl stop tokens) s rest ↔
      ∃ name equals mid init, tokens = name :: equals :: mid ∧ name.kind = .ident ∧
        equals.kind = .assign ∧ Reads (closedExpression stop mid) init rest ∧
        s = .varDecl name.text init := by
  simp only [variableDecl, reads_bind, reads_expect, reads_pure, exists_prop]
  grind

/-- Parameters with commas between them. -/
theorem reads_parameterList :
    Reads (parameterList stop tokens) names rest ↔
      ∃ name t more, tokens = name :: t :: more ∧ name.kind = .ident ∧
        ((t.kind = .comma ∧ ∃ later, Reads (parameterList stop more) later rest ∧
            names = name.text :: later) ∨
          t.kind = .rparen ∧ names = [name.text] ∧ rest = more) := by
  rw [parameterList]
  simp only [reads_bind]
  refine exists_congr fun name => ?_
  constructor
  · rintro ⟨mid, hname, h⟩
    obtain ⟨rfl, hkind⟩ := reads_expect.1 hname
    cases mid with
    | nil => exact absurd h not_reads_throw
    | cons t more =>
      refine ⟨t, more, rfl, hkind, ?_⟩
      dsimp only at h
      split at h
      · simp only [reads_bind, reads_pure, exists_prop] at h
        grind
      · split at h
        · simp only [reads_pure] at h
          grind
        · exact absurd h not_reads_throw
  · rintro ⟨t, more, rfl, hkind, h⟩
    refine ⟨t :: more, reads_expect.2 ⟨rfl, hkind⟩, ?_⟩
    dsimp only
    split
    · simp only [reads_bind, reads_pure, exists_prop]
      grind
    · rw [if_pos (by grind)]
      simp only [reads_pure]
      grind

/-- Parameters, possibly none. -/
theorem reads_parameters :
    Reads (parameters stop tokens) names rest ↔
      ∃ t more, tokens = t :: more ∧
        (t.kind = .rparen ∧ names = [] ∧ rest = more ∨
          t.kind ≠ .rparen ∧ Reads (parameterList stop tokens) names rest) := by
  unfold parameters
  cases tokens with
  | nil => simp [not_reads_error]
  | cons t more =>
    by_cases ht : t.kind = .rparen
    · simp only [ht, if_true, reads_ok]; grind
    · simp only [ht, if_false]; grind

/-- A declaration is told by the kind of its first token. -/
theorem reads_declaration :
    Reads (declaration stop tokens) s rest ↔
      ∃ t more, tokens = t :: more ∧
        match t.kind with
        | .kwFunc => ∃ name paren mid params after body, more = name :: paren :: mid ∧
            name.kind = .ident ∧ paren.kind = .lparen ∧ Reads (parameters stop mid) params after ∧
            Reads (block stop after) body rest ∧ s = .funcDecl name.text params body
        | .kwLet => Reads (variableDecl stop more) s rest
        | .kwMacro => ∃ name mid body, more = name :: mid ∧ name.kind = .ident ∧
            Reads (macroItems stop mid) body rest ∧ s = .macroDecl name.text body
        | .kwIf => Reads (conditional stop more) s rest
        | .kwWhile => ∃ cond mid body, Reads (condition stop more) cond mid ∧
            Reads (block stop mid) body rest ∧ s = .while cond body
        | .kwReturn => ∃ value, Reads (closedExpression stop more) value rest ∧ s = .ret value
        | .kwPrint => ∃ value, Reads (closedExpression stop more) value rest ∧ s = .print value
        | .lbrace => ∃ body, Reads (block stop tokens) body rest ∧ s = .block body
        | _ => ∃ value, Reads (closedExpression stop tokens) value rest ∧ s = .expr value := by
  rw [declaration.eq_def]
  cases tokens with
  | nil => simp [not_reads_error]
  | cons t more =>
    simp only [List.cons.injEq, exists_and_left, and_assoc, exists_eq_left']
    split <;> simp only [reads_bind, reads_expect, reads_pure, exists_prop] <;> grind

/-- A conditional, its `else` part, or a chain of them. -/
theorem reads_conditional :
    Reads (conditional stop tokens) s rest ↔
      ∃ cond mid, Reads (condition stop tokens) cond mid ∧
        ∃ body after, Reads (block stop mid) body after ∧
          ((∀ t, after.head? = some t → t.kind ≠ .kwElse) ∧ s = .ifThen cond body ∧ rest = after ∨
            ∃ t u others, after = t :: u :: others ∧ t.kind = .kwElse ∧
              ((u.kind = .kwIf ∧ ∃ alternative, Reads (conditional stop others) alternative rest ∧
                  s = .ifElse cond body [alternative]) ∨
                u.kind ≠ .kwIf ∧ ∃ alternative, Reads (block stop (u :: others)) alternative rest ∧
                  s = .ifElse cond body alternative)) := by
  rw [conditional]
  simp only [reads_bind]
  refine exists_congr fun cond => exists_congr fun mid => exists_iff_and fun _ => ?_
  refine exists_congr fun body => exists_congr fun after => exists_iff_and fun _ => ?_
  cases after with
  | nil => simp only [reads_pure]; grind
  | cons t more =>
    by_cases helse : t.kind = .kwElse
    · cases more with
      | nil => simp only [helse, if_true, not_reads_throw]; grind
      | cons u others =>
        by_cases hif : u.kind = .kwIf
        · simp only [helse, hif, if_true, reads_bind, reads_pure, exists_prop]; grind
        · simp only [helse, hif, if_true, if_false, reads_bind, reads_pure, exists_prop]; grind
    · simp only [helse, if_false, reads_pure]; grind

theorem reads_block {body : List Stmt} :
    Reads (block stop tokens) body rest ↔
      ∃ brace mid, tokens = brace :: mid ∧ brace.kind = .lbrace ∧
        Reads (blockItems stop mid) body rest := by
  rw [block]
  simp only [reads_bind, reads_expect, reads_pure, exists_prop]
  grind

/-- The statements of a block up to its brace. -/
theorem reads_blockItems :
    Reads (blockItems stop tokens) items rest ↔
      ∃ t more, tokens = t :: more ∧
        (t.kind = .rbrace ∧ items = [] ∧ rest = more ∨
          t.kind = .semi ∧ Reads (blockItems stop more) items rest ∨
          t.kind ≠ .rbrace ∧ t.kind ≠ .semi ∧ ∃ item mid later,
            Reads (declaration stop tokens) item mid ∧ Reads (blockItems stop mid) later rest ∧
            items = item :: later) := by
  rw [blockItems.eq_def]
  cases tokens with
  | nil => simp [not_reads_error]
  | cons t more =>
    by_cases hbrace : t.kind = .rbrace
    · simp only [hbrace, if_true, reads_ok]; grind
    · by_cases hsemi : t.kind = .semi
      · simp only [hsemi, reduceCtorEq, if_false, if_true, reads_bind, reads_pure, exists_prop]
        grind
      · simp only [hbrace, hsemi, if_false, reads_bind, reads_pure, exists_prop]
        grind

/-- The statements of a macro up to its end. -/
theorem reads_macroItems :
    Reads (macroItems stop tokens) items rest ↔
      ∃ t more, tokens = t :: more ∧
        (t.kind = .kwEndMacro ∧ items = [] ∧ rest = more ∨
          t.kind ≠ .kwEndMacro ∧ ∃ item mid later,
            Reads (declaration stop tokens) item mid ∧ Reads (macroItems stop mid) later rest ∧
            items = item :: later) := by
  rw [macroItems.eq_def]
  cases tokens with
  | nil => simp [not_reads_error]
  | cons t more =>
    by_cases hend : t.kind = .kwEndMacro
    · simp only [hend, if_true, reads_ok]; grind
    · simp only [hend, if_false, reads_bind, reads_pure, exists_prop]; grind

/-- Declarations up to the end of the tokens. -/
theorem program_eq_ok :
    program stop tokens = .ok items ↔
      tokens = [] ∧ items = [] ∨
        ∃ t more, tokens = t :: more ∧
          (t.kind = .semi ∧ program stop more = .ok items ∨
            t.kind ≠ .semi ∧ ∃ item mid later, Reads (declaration stop tokens) item mid ∧
              program stop mid = .ok later ∧ items = item :: later) := by
  rw [program.eq_def]
  cases tokens with
  | nil => simp [eq_comm]
  | cons t more =>
    by_cases hsemi : t.kind = .semi
    · simp only [hsemi, if_true]; grind
    · simp only [hsemi, if_false, bind_eq_ok]
      constructor
      · rintro ⟨⟨item, mid, h⟩, hitem, later, hlater, heq⟩
        cases heq
        exact .inr ⟨t, more, rfl, .inr ⟨hsemi, item, mid, later, ⟨h, hitem⟩, hlater, rfl⟩⟩
      · rintro (⟨h, -⟩ | ⟨_, _, heq, ⟨hkind, -⟩ | ⟨-, item, mid, later, ⟨h, hitem⟩, hlater, rfl⟩⟩)
        · cases h
        · cases heq
          exact absurd hkind hsemi
        · exact ⟨⟨item, mid, h⟩, hitem, later, hlater, rfl⟩

/-! ## Whole inputs -/

section Marker

variable {body : List Token} {marker : Token} (hmarker : marker.kind = .eof)
  (hbody : ∀ t ∈ body, t.kind ≠ .eof)

include hmarker hbody

/-- The tokens in front of the end marker. -/
theorem content_append_marker : content (body ++ [marker]) = body := by
  unfold content
  rw [List.takeWhile_append_of_pos (by simpa using hbody)]
  simp [hmarker]

theorem endMarker_append_marker : endMarker (body ++ [marker]) = marker := by
  have hfind : (body ++ [marker]).find? (·.kind == .eof) = some marker := by
    rw [List.find?_append, List.find?_eq_none.2 (by simpa using hbody)]
    simp [hmarker]
  simp [endMarker, hfind]

end Marker

end ImpMachine.Parser
