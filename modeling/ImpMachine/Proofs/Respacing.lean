import ImpMachine.Proofs.Coverage
import ImpMachine.Proofs.Scanning

/-!
# Tokens do not depend on the layout

A token says where it starts and how long it is, and so cuts its own piece out of the source
(`slice`). These pieces can be moved apart and lines broken between them: with any blanks around
them, and at least one between two of them (`Spaced`), they are read as the same tokens again. Only
the places change (`tokenize_respaced`).
-/

namespace ImpMachine

open List

/-- What a token says apart from its place. -/
def Token.content (t : Token) : Token.Kind × String := (t.kind, t.text)

/-! ## Places -/

namespace Position

/-- How many characters of a text that starts at `p` stand before the place `target`. -/
def offsetFrom (p target : Position) : List Char → Nat
  | [] => 0
  | c :: rest => if p = target then 0 else (p.next c).offsetFrom target rest + 1

/-- Behind a text the line is a later one, or the text has no line feed. -/
theorem after_cases (p : Position) (cs : List Char) :
    p.line < (p.after cs).line ∨ p.after cs = ⟨p.line, p.col + cs.length⟩ := by
  induction cs generalizing p with
  | nil => exact .inr rfl
  | cons c cs ih =>
    change p.line < ((p.next c).after cs).line ∨ (p.next c).after cs = _
    have hnext := ih (p.next c)
    unfold next at hnext ⊢
    split at hnext
    · rename_i hline
      rw [if_pos hline]
      rcases hnext with hlt | heq
      · exact .inl (Nat.lt_of_succ_lt hlt)
      · rw [heq]
        exact .inl (Nat.lt_succ_self _)
    · rename_i hline
      rw [if_neg hline]
      refine hnext.imp_right fun heq => ?_
      rw [heq, length_cons, Nat.add_assoc, Nat.add_comm 1]

/-- Every character moves the place. -/
theorem after_ne (p : Position) {cs : List Char} (h : cs ≠ []) : p.after cs ≠ p := by
  intro heq
  have hpos := length_pos_iff.2 h
  rcases p.after_cases cs with hlt | hcol
  · rw [heq] at hlt
    omega
  · rw [heq] at hcol
    have := congrArg Position.col hcol
    dsimp only at this
    omega

theorem offsetFrom_after (p : Position) (front rest : List Char) :
    p.offsetFrom (p.after front) (front ++ rest) = front.length := by
  induction front generalizing p with
  | nil => cases rest <;> simp [offsetFrom, after]
  | cons c front ih =>
    have hne : p ≠ p.after (c :: front) := (p.after_ne (cons_ne_nil _ _)).symm
    rw [cons_append, offsetFrom, if_neg hne]
    exact congrArg (· + 1) (ih (p.next c))

end Position

namespace Lexer

variable {tokens : List Token} {source : List Char} {gap : List Char}

/-! ## Pieces of the source -/

/-- The characters that a token covers: as many as it says, from its place on. -/
def slice (source : List Char) (t : Token) : List Char :=
  (source.drop (Position.start.offsetFrom ⟨t.line, t.col⟩ source)).take t.len

theorem Covers.slice_eq {t : Token} {p : Nat} (h : Covers source t p) :
    slice source t = (source.drop p).take t.len := by
  have hplace : (⟨t.line, t.col⟩ : Position) = Position.start.after (source.take p) := by
    rw [Position.after_start, h.line, h.col]
  have hoffset := Position.start.offsetFrom_after (source.take p) (source.drop p)
  have hfits := h.fits
  rw [take_append_drop, length_take, Nat.min_eq_left (by omega)] at hoffset
  rw [slice, hplace, hoffset]

theorem Laid.exists_covers {e : Nat} {offsets : List Nat} (h : Laid source e tokens offsets) :
    ∀ t ∈ tokens, ∃ p, Covers source t p := by
  induction h with
  | nil => simp
  | cons _ _ hcovers _ ih => exact forall_mem_cons.2 ⟨⟨_, hcovers⟩, ih⟩

/-- The piece of a token is a lexeme of its kind and text. -/
theorem lexeme_slice (h : Lexed .start source tokens) :
    ∀ t ∈ tokens, t.kind ≠ .eof → Lexeme t.kind (slice source t) t.text.toList := by
  intro t ht hkind
  obtain ⟨offsets, hlaid, -⟩ := exists_laid h [] rfl
  obtain ⟨p, hcovers⟩ := hlaid.exists_covers t ht
  rw [nil_append] at hcovers
  rw [hcovers.slice_eq]
  exact hcovers.lexeme hkind

/-! ## Moving them apart -/

/-- Blanks and nothing else. -/
def Blanks (gap : List Char) : Prop :=
  ∀ c ∈ gap, Text.isBlank c = true

/-- The pieces one after the other, with blanks between any two. -/
inductive Spaced : List (List Char) → List Char → Prop where
  | nil : Spaced [] []
  | single {piece : List Char} : Spaced [piece] piece
  | cons {piece next gap text : List Char} {pieces : List (List Char)} :
      gap ≠ [] → Blanks gap → Spaced (next :: pieces) text →
      Spaced (piece :: next :: pieces) (piece ++ (gap ++ text))

theorem cuts_blanks (p : Position) (rest : List Char) (h : Blanks gap) :
    ∃ p', Cuts p (gap ++ rest) [] p' rest := by
  induction gap generalizing p with
  | nil => exact ⟨p, rfl⟩
  | cons c gap ih =>
    obtain ⟨hc, hgap⟩ := forall_mem_cons.1 h
    obtain ⟨p₁, hfirst⟩ := cuts_blank p (gap ++ rest) hc
    obtain ⟨p₂, hlater⟩ := ih p₁ hgap
    exact ⟨p₂, hfirst.trans hlater⟩

theorem Blanks.setOff (h : Blanks gap) : SetOff gap :=
  fun c hc => h c (mem_of_mem_head? hc)

theorem Blanks.setOff_append (h : Blanks gap) (hne : gap ≠ []) (rest : List Char) :
    SetOff (gap ++ rest) := by
  obtain ⟨c, gap, rfl⟩ := exists_cons_of_ne_nil hne
  exact setOff_cons _ (h c (.head _))

/-- **Pieces apart from each other are read one by one.** -/
theorem Spaced.cuts {piece : Token → List Char} {text : List Char}
    (h : Spaced (tokens.map piece) text)
    (htokens : ∀ t ∈ tokens, Lexeme t.kind (piece t) t.text.toList) {rest : List Char}
    (hrest : SetOff rest) (p : Position) :
    ∃ again p', Cuts p (text ++ rest) again p' rest ∧
      again.map Token.content = tokens.map Token.content := by
  induction tokens generalizing text p with
  | nil =>
    cases h
    exact ⟨[], p, rfl, rfl⟩
  | cons t tokens ih =>
    obtain ⟨ht, hlater⟩ := forall_mem_cons.1 htokens
    cases tokens with
    | nil =>
      cases h
      obtain ⟨u, p', hcuts, hkind, htext⟩ := ht.cuts hrest p
      exact ⟨[u], p', hcuts, by simp [Token.content, hkind, htext]⟩
    | cons next tokens =>
      cases h with
      | @cons _ _ gap later _ hne hgap hspaced =>
        obtain ⟨u, p₁, hcuts, hkind, htext⟩ :=
          ht.cuts (hgap.setOff_append hne (later ++ rest)) p
        obtain ⟨p₂, hskip⟩ := cuts_blanks p₁ (later ++ rest) hgap
        obtain ⟨again, p₃, hagain, hcontent⟩ := ih hspaced hlater p₂
        refine ⟨u :: again, p₃, ?_, ?_⟩
        · simpa using hcuts.trans (hskip.trans hagain)
        · rw [map_cons, hcontent]
          simp [Token.content, hkind, htext]

end Lexer

/-- **Tokens do not depend on the layout.** The pieces that the tokens of a source cover, set apart
by blanks in any other way, have the same tokens. -/
theorem tokenize_respaced {source : String} {tokens : List Token}
    (h : tokenize source = .ok tokens) {before text after : List Char}
    (hbefore : Lexer.Blanks before)
    (htext : Lexer.Spaced ((tokens.filter (·.kind != .eof)).map (Lexer.slice source.toList)) text)
    (hafter : Lexer.Blanks after) :
    ∃ again, tokenize (String.ofList (before ++ (text ++ after))) = .ok again ∧
      again.map Token.content = tokens.map Token.content := by
  have hlexed := Lexer.lexed_of_tokenize h
  have hlexemes := Lexer.lexeme_slice hlexed
  obtain ⟨body, line, col, rfl, hbody⟩ := hlexed.exists_endOfInput
  have hfilter : (body ++ [Token.endOfInput line col]).filter (·.kind != .eof) = body := by
    rw [filter_append, filter_eq_self.2 (by simpa using hbody)]
    simp [Token.endOfInput]
  rw [hfilter] at htext
  obtain ⟨p₁, hskip⟩ := Lexer.cuts_blanks .start (text ++ after) hbefore
  obtain ⟨again, p₂, hcuts, hcontent⟩ := htext.cuts
    (fun t ht => hlexemes t (mem_append_left _ ht) (hbody t ht)) hafter.setOff p₁
  obtain ⟨p₃, hend⟩ := Lexer.cuts_blanks p₂ [] hafter
  rw [append_nil] at hend
  have hall : Lexer.Cuts .start (String.ofList (before ++ (text ++ after))).toList again p₃ [] := by
    rw [String.toList_ofList]
    simpa using hskip.trans (hcuts.trans hend)
  exact ⟨_, Lexer.tokenize_of_cuts hall, by simp [hcontent, Token.content, Token.endOfInput]⟩

/-- The source has no blank outside its string, and two comments; its pieces are put on three
lines. -/
theorem tokenize_respaced_lines :
    tokenize "#m/**/1.5<=\"a b\"//" =
        .ok [⟨.directive, "#m", 1, 1, 2⟩, ⟨.float, "1.5", 1, 7, 3⟩, ⟨.ltEq, "<=", 1, 10, 2⟩,
          ⟨.str, "a b", 1, 12, 5⟩, ⟨.eof, "", 1, 19, 0⟩] ∧
      ∃ again, tokenize "\n#m\t1.5\n<= \"a b\" \n" = .ok again ∧
        again.map Token.content =
          [(.directive, "#m"), (.float, "1.5"), (.ltEq, "<="), (.str, "a b"), (.eof, "")] := by
  have h : tokenize "#m/**/1.5<=\"a b\"//" =
      .ok [⟨.directive, "#m", 1, 1, 2⟩, ⟨.float, "1.5", 1, 7, 3⟩, ⟨.ltEq, "<=", 1, 10, 2⟩,
        ⟨.str, "a b", 1, 12, 5⟩, ⟨.eof, "", 1, 19, 0⟩] := by
    decide +kernel
  have hpieces : ([⟨.directive, "#m", 1, 1, 2⟩, ⟨.float, "1.5", 1, 7, 3⟩, ⟨.ltEq, "<=", 1, 10, 2⟩,
      ⟨.str, "a b", 1, 12, 5⟩, ⟨.eof, "", 1, 19, 0⟩].filter (·.kind != .eof)).map
        (Lexer.slice "#m/**/1.5<=\"a b\"//".toList) =
      [['#', 'm'], ['1', '.', '5'], ['<', '='], ['"', 'a', ' ', 'b', '"']] := by
    decide +kernel
  have hblanks : ∀ gap ∈ [['\n'], ['\t'], [' '], [' ', '\n']], Lexer.Blanks gap := by
    have hall : [['\n'], ['\t'], [' '], [' ', '\n']].all (·.all Text.isBlank) = true := by decide
    exact fun gap hgap => all_eq_true.1 (all_eq_true.1 hall gap hgap)
  have htext : Lexer.Spaced [['#', 'm'], ['1', '.', '5'], ['<', '='], ['"', 'a', ' ', 'b', '"']]
      (['#', 'm'] ++ (['\t'] ++ (['1', '.', '5'] ++ (['\n'] ++ (['<', '='] ++
        ([' '] ++ ['"', 'a', ' ', 'b', '"'])))))) :=
    .cons (by decide) (hblanks ['\t'] (by decide))
      (.cons (by decide) (hblanks ['\n'] (by decide))
        (.cons (by decide) (hblanks [' '] (by decide)) .single))
  have hlines : String.ofList (['\n'] ++ ((['#', 'm'] ++ (['\t'] ++ (['1', '.', '5'] ++ (['\n'] ++
      (['<', '='] ++ ([' '] ++ ['"', 'a', ' ', 'b', '"'])))))) ++ [' ', '\n'])) =
      "\n#m\t1.5\n<= \"a b\" \n" := by
    decide
  rw [← hpieces] at htext
  obtain ⟨again, htokens, hcontent⟩ := tokenize_respaced h (hblanks ['\n'] (by decide)) htext
    (hblanks [' ', '\n'] (by decide))
  rw [hlines] at htokens
  exact ⟨h, again, htokens, hcontent⟩

end ImpMachine
