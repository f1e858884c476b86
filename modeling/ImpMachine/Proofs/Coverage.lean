import Mathlib.Data.List.Induction
import ImpMachine.Proofs.Lexemes

/-!
# Tokens cover their source

The tokens of a source lie on it one behind the other, and only gaps lie between them (`Laid`).
Each covers as many characters as it says, stands at the line and column of the first of them, and
has their text, or what they stand for between quotes (`Covers`). `tokenize_covers` states this for
every source that has tokens, together with where the end marker stands: last, and nowhere else.
-/

namespace ImpMachine

open List

variable {kind : Token.Kind} {text : List Char} {tokens : List Token}

/-- The line counts the line feeds, the column what stands behind the last one. -/
theorem Position.after_start (cs : List Char) :
    Position.start.after cs =
      ⟨cs.count '\n' + 1, (cs.reverse.takeWhile (· != '\n')).length + 1⟩ := by
  induction cs using List.reverseRecOn with
  | nil => rfl
  | append_singleton cs c ih =>
    rw [after, foldl_append, foldl_cons, foldl_nil, ← after, ih, next]
    by_cases h : c = '\n'
    · simp [h]
    · simp [h]

theorem Position.after_append (p : Position) (cs ds : List Char) :
    p.after (cs ++ ds) = (p.after cs).after ds :=
  foldl_append

namespace Lexer

variable {cs : List Char} {p : Position}

/-- The text of the token is its source, or what the source stands for between quotes. -/
def Spells (t : Token) (source : List Char) : Prop :=
  match t.kind with
  | .str => ∃ body, source = '"' :: (body ++ ['"']) ∧ Contents '"' body t.text.toList
  | .char => ∃ body, source = '\'' :: (body ++ ['\'']) ∧ Contents '\'' body t.text.toList
  | _ => t.text.toList = source

/-- The token covers the characters of `source` from the offset `p` on. -/
structure Covers (source : List Char) (t : Token) (p : Nat) : Prop where
  fits : p + t.len ≤ source.length
  spells : Spells t ((source.drop p).take t.len)
  lexeme : t.kind ≠ .eof → Lexeme t.kind ((source.drop p).take t.len) t.text.toList
  line : t.line = (source.take p).count '\n' + 1
  col : t.col = ((source.take p).reverse.takeWhile (· != '\n')).length + 1

/-- From the offset `e` on, `source` holds the tokens at their offsets, with gaps around them. -/
inductive Laid (source : List Char) : Nat → List Token → List Nat → Prop where
  | nil {e : Nat} : Gap [] (source.drop e) → Laid source e [] []
  | cons {e p : Nat} {t : Token} {tokens : List Token} {offsets : List Nat} :
      e ≤ p → Gap (source.drop p) ((source.take p).drop e) → Covers source t p →
      Laid source (p + t.len) tokens offsets → Laid source e (t :: tokens) (p :: offsets)

namespace Laid

variable {source : List Char} {e : Nat} {offsets : List Nat}

theorem le_of_mem (h : Laid source e tokens offsets) : ∀ p ∈ offsets, e ≤ p := by
  induction h with
  | nil => simp
  | cons hle _ _ _ ih =>
    intro q hq
    rcases mem_cons.1 hq with rfl | hq
    · exact hle
    · have := ih q hq
      omega

/-- A blank or a comment before the first token widens the gap there. -/
theorem skip {piece after : List Char} (hsource : source.drop e = piece ++ after)
    (hpiece : Skipped after piece) (h : Laid source (e + piece.length) tokens offsets) :
    Laid source e tokens offsets := by
  have hafter : source.drop (e + piece.length) = after := by
    rw [← drop_drop, hsource, drop_left]
  cases h with
  | nil hgap =>
    refine .nil ?_
    rw [hsource]
    rw [hafter] at hgap
    exact .cons (by simpa using hpiece) hgap
  | @cons _ p t _ _ hle hgap hcovers hlater =>
    refine .cons (by omega) ?_ hcovers hlater
    -- the old gap is a start of `after`, and the first token stands behind it
    have hold : (source.take p).drop (e + piece.length) = after.take (p - (e + piece.length)) := by
      rw [drop_take, hafter]
    have htoken : source.drop p = after.drop (p - (e + piece.length)) := by
      rw [← hafter, drop_drop, Nat.add_sub_cancel' hle]
    have hnew : (source.take p).drop e = piece ++ after.take (p - (e + piece.length)) := by
      rw [drop_take, hsource, take_append, take_of_length_le (by omega),
        Nat.sub_sub]
    rw [hold, htoken] at hgap
    rw [hnew, htoken]
    exact .cons (by rwa [take_append_drop]) hgap

end Laid

/-! ## From pieces to places -/

theorem Lexeme.ne_eof {source : List Char} (h : Lexeme kind source text) : kind ≠ .eof := by
  cases h with
  | integer | float | string | char | directive => simp
  | word => exact ne_of_ofKeyword? _ (by decide)
  | pair h => exact ne_of_pairKind? h (by decide)
  | single h => exact ne_of_singleKind? h (by decide)

theorem spells_of_eq {t : Token} {source : List Char} (hstr : t.kind ≠ .str)
    (hchar : t.kind ≠ .char) (h : t.text.toList = source) : Spells t source := by
  unfold Spells
  split
  · contradiction
  · contradiction
  · exact h

theorem Lexeme.spells {source : List Char} (h : Lexeme kind source text)
    (line col len : Nat) : Spells ⟨kind, String.ofList text, line, col, len⟩ source := by
  cases h with
  | string hbody | char hbody => exact ⟨_, rfl, by simpa using hbody⟩
  | integer | float | directive => simp [Spells]
  | word =>
    exact spells_of_eq (ne_of_ofKeyword? _ (by decide)) (ne_of_ofKeyword? _ (by decide)) (by simp)
  | pair h =>
    exact spells_of_eq (ne_of_pairKind? h (by decide)) (ne_of_pairKind? h (by decide)) (by simp)
  | single h =>
    exact spells_of_eq (ne_of_singleKind? h (by decide)) (ne_of_singleKind? h (by decide)) (by simp)

/-- The tokens of a text that starts behind `done`. -/
theorem exists_laid (h : Lexed p cs tokens) :
    ∀ done : List Char, p = Position.start.after done →
      ∃ offsets, Laid (done ++ cs) done.length tokens offsets ∧ offsets.Pairwise (· < ·) := by
  induction h with
  | @stop p =>
    rintro done rfl
    refine ⟨[done.length], .cons (Nat.le_refl _) ?_ ?_ (.nil ?_), by simp⟩
    · simpa using Gap.nil
    · rw [Position.after_start]
      constructor <;> simp [Token.endOfInput, Spells]
    · simpa [Token.endOfInput] using Gap.nil
  | @skip p piece after tokens hpiece _ ih =>
    rintro done rfl
    obtain ⟨offsets, hlaid, hincreasing⟩ := ih _ (Position.after_append _ _ _).symm
    rw [length_append, append_assoc] at hlaid
    exact ⟨offsets, .skip (by rw [drop_left]) hpiece hlaid, hincreasing⟩
  | @token p kind source text after tokens hsource _ ih =>
    rintro done rfl
    obtain ⟨offsets, hlaid, hincreasing⟩ := ih _ (Position.after_append _ _ _).symm
    rw [length_append, append_assoc] at hlaid
    refine ⟨done.length :: offsets, .cons (Nat.le_refl _) ?_ ?_ hlaid, ?_⟩
    · simpa using Gap.nil
    · rw [Position.after_start]
      constructor
      · simp
      · simpa using hsource.spells _ _ _
      · simpa using fun _ => hsource
      · simp
      · simp
    · refine pairwise_cons.2 ⟨fun q hq => ?_, hincreasing⟩
      have hpos := length_pos_iff.2 hsource.ne_nil
      have := hlaid.le_of_mem q hq
      omega

/-- The last token marks the end of the text, and no other one does. -/
theorem Lexed.exists_endOfInput (h : Lexed p cs tokens) :
    ∃ body line col, tokens = body ++ [Token.endOfInput line col] ∧ ∀ t ∈ body, t.kind ≠ .eof := by
  induction h with
  | stop => exact ⟨[], _, _, rfl, by simp⟩
  | skip _ _ ih => exact ih
  | token hsource _ ih =>
    obtain ⟨body, line, col, rfl, hbody⟩ := ih
    refine ⟨_ :: body, line, col, rfl, fun t ht => ?_⟩
    rcases mem_cons.1 ht with rfl | ht
    · exact hsource.ne_eof
    · exact hbody t ht

/-- The end marker stands last and nowhere else. -/
theorem Lexed.exists_marker (h : Lexed p cs tokens) :
    ∃ body marker, tokens = body ++ [marker] ∧ marker.kind = .eof ∧ ∀ t ∈ body, t.kind ≠ .eof := by
  obtain ⟨body, line, col, rfl, hbody⟩ := h.exists_endOfInput
  exact ⟨body, _, rfl, rfl, hbody⟩

end Lexer

/-- **Lexing loses nothing.** The end marker is the last token and the only one of its kind. The
tokens stand at increasing offsets of the source, apart from each other, with nothing but blanks
and complete comments between and around them; each covers its source, names the place where that
starts and has its text. -/
theorem tokenize_covers {source : String} {tokens : List Token}
    (h : tokenize source = .ok tokens) :
    (∃ body marker, tokens = body ++ [marker] ∧ marker.kind = .eof ∧
        ∀ t ∈ body, t.kind ≠ .eof) ∧
      ∃ offsets : List Nat, offsets.Pairwise (· < ·) ∧
        Lexer.Laid source.toList 0 tokens offsets := by
  have hlexed := Lexer.lexed_of_tokenize h
  obtain ⟨offsets, hlaid, hincreasing⟩ := Lexer.exists_laid hlexed [] rfl
  exact ⟨hlexed.exists_marker, offsets, hincreasing, hlaid⟩

/-- The source has a comment over two lines, a string with an escape, and a sign of two
characters. -/
theorem tokenize_covers_commented :
    (tokenize "x /* a\n*/ <= \"\\t\"" =
        .ok [⟨.ident, "x", 1, 1, 1⟩, ⟨.ltEq, "<=", 2, 4, 2⟩, ⟨.str, "\t", 2, 7, 4⟩,
          ⟨.eof, "", 2, 11, 0⟩]) ∧
      ∃ offsets : List Nat, offsets.Pairwise (· < ·) ∧
        Lexer.Laid "x /* a\n*/ <= \"\\t\"".toList 0
          [⟨.ident, "x", 1, 1, 1⟩, ⟨.ltEq, "<=", 2, 4, 2⟩, ⟨.str, "\t", 2, 7, 4⟩,
            ⟨.eof, "", 2, 11, 0⟩] offsets := by
  have h : tokenize "x /* a\n*/ <= \"\\t\"" =
      .ok [⟨.ident, "x", 1, 1, 1⟩, ⟨.ltEq, "<=", 2, 4, 2⟩, ⟨.str, "\t", 2, 7, 4⟩,
        ⟨.eof, "", 2, 11, 0⟩] := by
    decide +kernel
  exact ⟨h, (tokenize_covers h).2⟩

end ImpMachine
