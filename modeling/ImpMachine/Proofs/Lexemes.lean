import Mathlib.Data.List.TakeWhile
import ImpMachine.Token.Lexer
import ImpMachine.Proofs.Numerals

/-!
# Gaps and lexemes

The pieces that source text is made of, said without the scanner. A gap is a run of blanks and
complete comments. A lexeme is the source of one token; for string and character literals the
token's text is what the source between the quotes stands for, and for all other kinds the text is
the source itself. Whatever `scan` cuts off is a piece of one of these forms
(`Piece.fits_of_scan`).
-/

namespace ImpMachine.Lexer

open List

open Decimal (IsNumeral)

variable {rest cs source text after : List Char} {c value : Char} {piece : Piece}
variable {kind sign : Token.Kind} {tokens : List Token} {len : Nat}

/-! ## Gaps -/

/-- One blank or one comment before `after`. A line comment goes to the end of its line, a block
comment to the first closing mark. -/
inductive Skipped (after : List Char) : List Char → Prop where
  | blank {c : Char} : Text.isBlank c = true → Skipped after [c]
  | line {body : List Char} :
      '\n' ∉ body → (∀ c, after.head? = some c → c = '\n') → Skipped after ('/' :: '/' :: body)
  | block {body : List Char} :
      ¬ ['*', '/'] <:+: body ++ ['*'] → Skipped after ('/' :: '*' :: (body ++ ['*', '/']))

/-- Any number of blanks and comments with `after` behind them. -/
inductive Gap (after : List Char) : List Char → Prop where
  | nil : Gap after []
  | cons {piece gap : List Char} :
      Skipped (gap ++ after) piece → Gap after gap → Gap after (piece ++ gap)

/-! ## Lexemes -/

/-- What a backslash and the character behind it stand for, between the quotes `quote`. -/
inductive Escape (quote : Char) : Char → Char → Prop where
  | lineFeed : Escape quote 'n' '\n'
  | tab : Escape quote 't' '\t'
  | carriageReturn : Escape quote 'r' '\r'
  | null : Escape quote '0' '\x00'
  | backslash : Escape quote '\\' '\\'
  | quote : Escape quote quote quote

/-- The source between two quotes, and the contents that it stands for. -/
inductive Contents (quote : Char) : List Char → List Char → Prop where
  | nil : Contents quote [] []
  | plain {c : Char} {body text : List Char} :
      c ≠ quote → c ≠ '\\' → c ≠ '\n' → Contents quote body text →
      Contents quote (c :: body) (c :: text)
  | escaped {c value : Char} {body text : List Char} :
      Escape quote c value → Contents quote body text →
      Contents quote ('\\' :: c :: body) (value :: text)

/-- A letter or an underscore, then letters, digits and underscores. -/
def IsWord (cs : List Char) : Prop :=
  (∃ c, cs.head? = some c ∧ isNameStart c = true) ∧ ∀ c ∈ cs, isNameChar c = true

instance (cs : List Char) : Decidable (IsWord cs) :=
  decidable_of_iff (cs.head?.any isNameStart = true ∧ cs.all isNameChar = true)
    (and_congr (by cases cs <;> simp) all_eq_true)

/-- A token of the given kind has `source` as its source and `text` as its text. -/
inductive Lexeme : (kind : Token.Kind) → (source text : List Char) → Prop where
  | integer {digits : List Char} : IsNumeral digits → Lexeme .integer digits digits
  | float {whole fraction : List Char} :
      IsNumeral whole → IsNumeral fraction →
      Lexeme .float (whole ++ '.' :: fraction) (whole ++ '.' :: fraction)
  | word {word : List Char} :
      IsWord word →
      Lexeme ((Token.Kind.ofKeyword? (String.ofList word)).getD .ident) word word
  | string {body text : List Char} :
      Contents '"' body text → Lexeme .str ('"' :: (body ++ ['"'])) text
  | char {body : List Char} {value : Char} :
      Contents '\'' body [value] → Lexeme .char ('\'' :: (body ++ ['\''])) [value]
  | directive {word : List Char} :
      IsWord word → Lexeme .directive ('#' :: word) ('#' :: word)
  | pair {kind : Token.Kind} {c d : Char} :
      pairKind? c d = some kind → Lexeme kind [c, d] [c, d]
  | single {kind : Token.Kind} {c : Char} : singleKind? c = some kind → Lexeme kind [c] [c]

/-- The kinds that no word and no sign has. -/
def openKinds : List Token.Kind := [.integer, .float, .str, .char, .directive, .eof]

theorem ne_of_ofKeyword? (word : String) (hkind : kind ∈ openKinds) :
    (Token.Kind.ofKeyword? word).getD .ident ≠ kind := by
  rintro rfl
  revert hkind
  unfold Token.Kind.ofKeyword?
  split <;> decide

theorem ne_of_pairKind? {d : Char} (h : pairKind? c d = some sign)
    (hkind : kind ∈ openKinds) : sign ≠ kind := by
  rintro rfl
  revert hkind
  unfold pairKind? at h
  split at h <;> cases h <;> decide

theorem ne_of_singleKind? (h : singleKind? c = some sign)
    (hkind : kind ∈ openKinds) : sign ≠ kind := by
  rintro rfl
  revert hkind
  unfold singleKind? at h
  split at h <;> cases h <;> decide

/-- A lexeme of a kind that no word and no sign has, form by form. -/
theorem Lexeme.of_openKind (h : Lexeme kind source text) (hkind : kind ∈ openKinds) :
    (kind = .integer ∧ IsNumeral text) ∨
      (kind = .float ∧ ∃ whole fraction, text = whole ++ '.' :: fraction ∧ IsNumeral whole ∧
        IsNumeral fraction) ∨
      kind = .str ∨ (kind = .char ∧ ∃ c, text = [c]) ∨ kind = .directive := by
  cases h with
  | integer hdigits => exact .inl ⟨rfl, hdigits⟩
  | float hwhole hfraction => exact .inr (.inl ⟨rfl, _, _, rfl, hwhole, hfraction⟩)
  | word => exact absurd rfl (ne_of_ofKeyword? _ hkind)
  | string => exact .inr (.inr (.inl rfl))
  | char => exact .inr (.inr (.inr (.inl ⟨rfl, _, rfl⟩)))
  | directive => exact .inr (.inr (.inr (.inr rfl)))
  | pair hpair => exact absurd rfl (ne_of_pairKind? hpair hkind)
  | single hsingle => exact absurd rfl (ne_of_singleKind? hsingle hkind)

/-! ## What is scanned is a piece -/

/-- The first piece of `cs` is a blank, a comment or a lexeme, and is as long as it says. -/
def Piece.Fits (cs : List Char) : Piece → Prop
  | .gap len => ∃ piece after, cs = piece ++ after ∧ piece.length = len ∧ Skipped after piece
  | .lexeme kind text len =>
    ∃ source after, cs = source ++ after ∧ source.length = len ∧ Lexeme kind source text

/-- A counted comment ends at the first closing mark. -/
theorem commentLength_eq_some (h : commentLength cs = some len) :
    ∃ body after, cs = body ++ '*' :: '/' :: after ∧ len = body.length + 2 ∧
      ¬ ['*', '/'] <:+: body ++ ['*'] := by
  fun_induction commentLength cs generalizing len with
  | case1 after =>
    cases h
    exact ⟨[], after, rfl, rfl, by decide⟩
  | case2 c rest hopen ih =>
    obtain ⟨inner, hinner, rfl⟩ := Option.map_eq_some_iff.1 h
    obtain ⟨body, after, rfl, rfl, hbody⟩ := ih hinner
    refine ⟨c :: body, after, rfl, rfl, ?_⟩
    intro hclose
    rcases infix_cons_iff.1 hclose with hfirst | hlater
    · -- a closing mark at the very front would have been taken
      obtain ⟨rfl, hslash⟩ := cons_prefix_cons.1 hfirst
      cases body with
      | nil => simp at hslash
      | cons d body =>
        obtain ⟨rfl, -⟩ := cons_prefix_cons.1 hslash
        exact hopen _ rfl rfl
    · exact hbody hlater
  | case3 => cases h

/-- What is unescaped was an escape. -/
theorem escape_of_unescape {quote : Char} (h : unescape quote c = .ok value) :
    Escape quote c value := by
  unfold unescape at h
  split at h
  case h_6 =>
    split at h
    · rename_i heq
      cases h
      exact heq ▸ .quote
    · cases h
  all_goals
    cases h
    constructor

/-- A scanned string ends at its first quote that is not escaped. -/
theorem scanString_eq_ok {offset : Nat} (h : scanString offset cs = .ok (text, len)) :
    ∃ body after, cs = body ++ '"' :: after ∧ len = offset + body.length + 1 ∧
      Contents '"' body text := by
  fun_induction scanString offset cs generalizing text with
  | case1 => cases h
  | case2 offset after =>
    cases h
    exact ⟨[], after, rfl, rfl, .nil⟩
  | case3 => cases h
  | case4 => cases h
  | case5 offset c rest value hvalue ih =>
    obtain ⟨⟨later, _⟩, hrest, heq⟩ := map_eq_ok.1 h
    cases heq
    obtain ⟨body, after, rfl, rfl, hbody⟩ := ih hrest
    refine ⟨'\\' :: c :: body, after, rfl, ?_, .escaped (escape_of_unescape hvalue) hbody⟩
    simp only [length_cons]
    omega
  | case6 => cases h
  | case7 offset c rest hquote hlone hescape hline ih =>
    obtain ⟨⟨later, _⟩, hrest, heq⟩ := map_eq_ok.1 h
    cases heq
    obtain ⟨body, after, rfl, rfl, hbody⟩ := ih hrest
    have hslash : c ≠ '\\' := by
      rintro rfl
      cases body with
      | nil | cons d body => exact hescape _ _ rfl rfl
    refine ⟨c :: body, after, rfl, ?_, .plain hquote hslash hline hbody⟩
    simp only [length_cons]
    omega

/-- A scanned character literal holds one character. -/
theorem scanChar_eq_ok (h : scanChar cs = .ok (value, len)) :
    ∃ body after, cs = body ++ '\'' :: after ∧ len = body.length + 2 ∧
      Contents '\'' body [value] := by
  unfold scanChar at h
  split at h
  · cases h
  · cases h
  · rename_i c rest
    split at h
    · cases h
    · rename_i escaped hescaped
      split at h
      · rename_i hclose
        cases h
        obtain ⟨after, rfl⟩ := List.head?_eq_some_iff.1 hclose
        exact ⟨['\\', c], after, rfl, rfl, .escaped (escape_of_unescape hescaped) .nil⟩
      · cases h
  · rename_i c rest hlone hescape
    split at h
    · cases h
    · rename_i hplain
      simp only [Bool.or_eq_true, decide_eq_true_eq, not_or] at hplain
      split at h
      · rename_i hclose
        cases h
        obtain ⟨after, rfl⟩ := List.head?_eq_some_iff.1 hclose
        have hslash : value ≠ '\\' := fun heq => hescape _ _ heq rfl
        exact ⟨[value], after, rfl, rfl, .plain hplain.1 hslash hplain.2 .nil⟩
      · cases h

theorem isNumeral_takeWhile (rest : List Char) (h : c.isDigit = true) :
    IsNumeral ((c :: rest).takeWhile Char.isDigit) :=
  ⟨by simp [h], fun _ hd => mem_takeWhile_imp hd⟩

theorem isNameChar_of_isNameStart (h : isNameStart c = true) : isNameChar c = true := by
  simp only [isNameStart, isNameChar, Char.isAlphanum, Bool.or_eq_true] at h ⊢
  exact h.imp_left .inl

theorem isWord_takeWhile (h : isNameStart c = true) : IsWord ((c :: rest).takeWhile isNameChar) :=
  ⟨⟨c, by simp [isNameChar_of_isNameStart h], h⟩, fun _ hd => mem_takeWhile_imp hd⟩

/-- A scanned number is a lexeme. -/
theorem fits_scanNumber (h : c.isDigit = true) : (scanNumber (c :: rest)).Fits (c :: rest) := by
  have hwhole := isNumeral_takeWhile rest h
  have hsplit : c :: rest = (c :: rest).takeWhile Char.isDigit ++
      (c :: rest).dropWhile Char.isDigit := takeWhile_append_dropWhile.symm
  have hinteger : Piece.Fits (c :: rest) (.lexeme .integer ((c :: rest).takeWhile Char.isDigit)
      ((c :: rest).takeWhile Char.isDigit).length) :=
    ⟨_, _, hsplit, rfl, .integer hwhole⟩
  unfold scanNumber
  dsimp only
  split
  · rename_i d later hdot
    split
    · rename_i hd
      have hfraction := isNumeral_takeWhile later hd
      rw [takeWhile_cons_of_pos hd] at hfraction
      refine ⟨_, later.dropWhile Char.isDigit, ?_, rfl, .float hwhole hfraction⟩
      rw [hdot] at hsplit
      simpa using hsplit
    · exact hinteger
  · exact hinteger

theorem fits_scanWord (h : isNameStart c = true) : (scanWord (c :: rest)).Fits (c :: rest) :=
  ⟨_, _, takeWhile_append_dropWhile.symm, rfl, .word (isWord_takeWhile h)⟩

theorem fits_scanDirective (h : scanDirective rest = .ok piece) : piece.Fits ('#' :: rest) := by
  unfold scanDirective at h
  split at h
  · rename_i hstart
    cases h
    cases rest with
    | nil => cases hstart
    | cons c rest =>
      refine ⟨'#' :: (c :: rest).takeWhile isNameChar, (c :: rest).dropWhile isNameChar, ?_, rfl,
        .directive (isWord_takeWhile hstart)⟩
      rw [cons_append, takeWhile_append_dropWhile]
  · cases h

theorem fits_scanOperator (h : scanOperator c rest = .ok piece) : piece.Fits (c :: rest) := by
  unfold scanOperator at h
  split at h
  · rename_i kind d after hkind
    cases h
    exact ⟨[c, d], after, rfl, rfl, .pair hkind⟩
  · split at h
    · rename_i kind hkind
      cases h
      exact ⟨[c], _, rfl, rfl, .single hkind⟩
    · cases h

theorem fits_scanComment (h : scanComment? c rest = some (.ok piece)) : piece.Fits (c :: rest) := by
  unfold scanComment? at h
  split at h
  · rename_i more
    cases h
    refine ⟨'/' :: '/' :: more.takeWhile (· != '\n'), more.dropWhile (· != '\n'), ?_, ?_, ?_⟩
    · rw [cons_append, cons_append, takeWhile_append_dropWhile]
    · simp only [length_cons]
      omega
    · refine .line (fun hline => ?_) fun d hd => ?_
      · simpa using mem_takeWhile_imp hline
      · have hstop := List.head?_dropWhile_not (· != '\n') more
        rw [hd] at hstop
        simpa using hstop
  · rename_i more
    split at h
    · rename_i len hlen
      cases h
      obtain ⟨body, after, rfl, rfl, hbody⟩ := commentLength_eq_some hlen
      refine ⟨'/' :: '*' :: (body ++ ['*', '/']), after, by simp, ?_, .block hbody⟩
      simp only [length_cons, length_append, length_nil]
      omega
    · cases h
  · cases h

/-- **What is scanned is a piece.** -/
theorem Piece.fits_of_scan (h : scan c rest = .ok piece) : piece.Fits (c :: rest) := by
  unfold scan at h
  split at h
  · rename_i hblank
    cases h
    exact ⟨[c], rest, rfl, rfl, .blank hblank⟩
  · split at h
    · rename_i result hcomment
      subst h
      exact fits_scanComment hcomment
    · split at h
      · rename_i hdigit
        cases h
        exact fits_scanNumber hdigit
      · split at h
        · rename_i hstart
          cases h
          exact fits_scanWord hstart
        · split at h
          · rename_i hquote
            subst hquote
            obtain ⟨⟨text, len⟩, hstring, rfl⟩ := map_eq_ok.1 h
            obtain ⟨body, after, rfl, rfl, hbody⟩ := scanString_eq_ok hstring
            refine ⟨'"' :: (body ++ ['"']), after, by simp, ?_, .string hbody⟩
            simp only [length_cons, length_append, length_nil]
            omega
          · split at h
            · rename_i hquote
              subst hquote
              obtain ⟨⟨value, len⟩, hchar, rfl⟩ := map_eq_ok.1 h
              obtain ⟨body, after, rfl, rfl, hbody⟩ := scanChar_eq_ok hchar
              refine ⟨'\'' :: (body ++ ['\'']), after, by simp, ?_, .char hbody⟩
              simp only [length_cons, length_append, length_nil]
            · split at h
              · rename_i hmark
                subst hmark
                exact fits_scanDirective h
              · exact fits_scanOperator h

/-! ## Whole texts -/

theorem Skipped.ne_nil {piece : List Char} (h : Skipped after piece) : piece ≠ [] := by
  cases h <;> simp

theorem Lexeme.ne_nil (h : Lexeme kind source text) : source ≠ [] := by
  cases h with
  | integer h => exact h.1
  | word h =>
    obtain ⟨⟨c, hc, -⟩, -⟩ := h
    exact ne_nil_of_mem (mem_of_mem_head? hc)
  | float | string | char | directive | pair | single => simp

/-- The text from `p` on is cut into pieces to its end, and these are its tokens. -/
inductive Lexed : Position → List Char → List Token → Prop where
  | stop {p : Position} : Lexed p [] [Token.endOfInput p.line p.col]
  | skip {p : Position} {piece after : List Char} {tokens : List Token} :
      Skipped after piece → Lexed (p.after piece) after tokens → Lexed p (piece ++ after) tokens
  | token {p : Position} {kind : Token.Kind} {source text after : List Char}
      {tokens : List Token} :
      Lexeme kind source text → Lexed (p.after source) after tokens →
      Lexed p (source ++ after)
        (⟨kind, String.ofList text, p.line, p.col, source.length⟩ :: tokens)

/-- Where a first piece ends in the text that `lexFrom` works on. -/
theorem split_at_piece {piece : List Char} (h : c :: rest = piece ++ after) (hne : piece ≠ []) :
    (c :: rest).take piece.length = piece ∧ rest.drop (piece.length - 1) = after := by
  have hdrop : rest.drop (piece.length - 1) = (c :: rest).drop piece.length := by
    rw [← drop_succ_cons (a := c), Nat.sub_add_cancel (length_pos_iff.2 hne)]
  rw [hdrop, h]
  exact ⟨take_left, drop_left⟩

/-- **A text without a fault is cut into pieces to its end.** -/
theorem lexed_of_lexFrom {p : Position} (h : lexFrom p cs = (tokens, none)) :
    Lexed p cs tokens := by
  fun_induction lexFrom p cs generalizing tokens with
  | case1 p =>
    cases h
    exact .stop
  | case2 => cases h
  | case3 p c rest len hscan ih =>
    obtain ⟨piece, after, hsplit, rfl, hpiece⟩ := Piece.fits_of_scan hscan
    obtain ⟨htake, hdrop⟩ := split_at_piece hsplit hpiece.ne_nil
    rw [htake, hdrop] at h ih
    rw [hsplit]
    exact .skip hpiece (ih h)
  | case4 p c rest kind text len hscan token later error? hrest =>
    rename_i ih
    cases h
    obtain ⟨source, after, hsplit, rfl, hsource⟩ := Piece.fits_of_scan hscan
    obtain ⟨htake, hdrop⟩ := split_at_piece hsplit hsource.ne_nil
    rw [htake, hdrop] at hrest ih
    rw [hsplit]
    exact .token hsource (ih hrest)

/-- **What the lexer finds are the lexemes of the source.** -/
theorem lexed_of_tokenize {source : String} (h : tokenize source = .ok tokens) :
    Lexed .start source.toList tokens := by
  unfold tokenize lex at h
  split at h
  · cases h
  · rename_i heq
    cases h
    exact lexed_of_lexFrom heq

end ImpMachine.Lexer
