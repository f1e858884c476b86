import ImpMachine.Proofs.OperandText

/-!
# Which operands are read back

Two things that listings write are not read back. An apostrophe and every character outside of
printable ASCII are written as escapes that strings do not have, so such a text is no token. The
smallest word is written with a magnitude that is no word, so it is read back where it is a whole
operand and nowhere else. Any other operand without doubles is read back, and an operand that is
not read back is refused: it is never read as another one (`readOperand_render_iff`).
-/

namespace ImpMachine

open List

variable {tokens : List Token} {pieces : List (List Token)} {t : Token} {e : Expr} {cs : List Char}
variable {source : String} {op lhs rhs : Operand}

/-! ## Texts that are no tokens -/

namespace Text

/-- A character that is not kept gets an escape that strings do not have. -/
theorem plainEscape_of_not_isKept {c : Char} (h : ¬IsKept c) :
    ∃ letter more, plainEscape c = '\\' :: letter :: more ∧
      Lexer.unescape '"' letter = .error (.unknownEscape letter) := by
  unfold plainEscape
  split
  · exact absurd (by decide) h
  · exact absurd (by decide) h
  · exact absurd (by decide) h
  · exact ⟨'\'', [], rfl, rfl⟩
  · exact absurd (by decide) h
  · exact absurd (by decide) h
  · rename_i hapostrophe _ _
    have hrange : ¬(0x20 ≤ c.toNat ∧ c.toNat < 0x7F) :=
      fun hrange => h (.inr ⟨hrange, hapostrophe⟩)
    rw [if_neg (by simpa using hrange)]
    exact ⟨'u', _, rfl, rfl⟩

end Text

namespace Lexer

theorem exists_misread_of_not_isKept (h : ∃ c ∈ cs, ¬Text.IsKept c) (offset : Nat)
    (rest : List Char) :
    ∃ m, scanString offset (cs.flatMap Text.plainEscape ++ rest) = .error m := by
  induction cs generalizing offset with
  | nil => simp at h
  | cons c cs ih =>
    rw [flatMap_cons, append_assoc]
    by_cases hc : Text.IsKept c
    · obtain ⟨d, hd, hkept⟩ := h
      have hlater : ∃ c ∈ cs, ¬Text.IsKept c := by
        rcases mem_cons.1 hd with rfl | hd
        · exact absurd hc hkept
        · exact ⟨d, hd, hkept⟩
      have hcontents := hc.contents .nil
      rw [append_nil] at hcontents
      obtain ⟨m, hm⟩ := ih hlater (offset + (Text.plainEscape c).length)
      exact ⟨m, by rw [scanString_append hcontents, hm]; rfl⟩
    · obtain ⟨letter, more, heq, hletter⟩ := Text.plainEscape_of_not_isKept hc
      rw [heq, cons_append, cons_append, scanString, hletter]
      exact ⟨_, rfl⟩

/-- A text with a character that is not kept stops the reading. -/
theorem lexFrom_text {s : String} (h : ∃ c ∈ s.toList, ¬Text.IsKept c) (p : Position)
    (rest : List Char) : (lexFrom p ((Operand.text s).render.toList ++ rest)).2 ≠ none := by
  have hrender : (Operand.text s).render.toList ++ rest =
      '"' :: (s.toList.flatMap Text.plainEscape ++ '"' :: rest) := by
    simp [Operand.render, Text.plain]
  obtain ⟨m, hm⟩ := exists_misread_of_not_isKept h 1 ('"' :: rest)
  have hscan : scan '"' (s.toList.flatMap Text.plainEscape ++ '"' :: rest) = .error m := by
    have hstring : scan '"' (s.toList.flatMap Text.plainEscape ++ '"' :: rest) =
        (scanString 1 (s.toList.flatMap Text.plainEscape ++ '"' :: rest)).map
          fun r => .lexeme .str r.1 r.2 := rfl
    rw [hstring, hm]
    rfl
  rw [hrender, lexFrom.eq_def]
  simp [hscan]

end Lexer

/-! ## Numerals that are no words -/

namespace Grammar

open Lexer

/-- A numeral that is too large for a word. -/
def IsOversize (t : Token) : Prop :=
  t.kind = .integer ∧ ∀ n : Int64, ¬Decimal.Denotes t.text.toList n.toInt

theorem not_isOversize_of_ne (h : t.kind ≠ .integer) : ¬IsOversize t :=
  fun hoversize => h hoversize.1

theorem IsLiteral.not_isOversize {value : Literal} (h : IsLiteral t value) : ¬IsOversize t := by
  cases h with
  | integer _ hdenotes => exact fun hoversize => hoversize.2 _ hdenotes
  | float hkind | string hkind | char hkind | yes hkind | no hkind | null hkind =>
    exact not_isOversize_of_ne (by simp [hkind])

theorem Separated.mem_cases (h : Separated pieces tokens) (ht : t ∈ tokens) :
    t.kind = .comma ∨ ∃ piece ∈ pieces, t ∈ piece := by
  induction h with
  | nil => cases ht
  | single => exact .inr ⟨_, .head _, ht⟩
  | cons hcomma _ ih =>
    rcases mem_append.1 ht with ht | ht
    · exact .inr ⟨_, .head _, ht⟩
    rcases mem_cons.1 ht with rfl | ht
    · exact .inl hcomma
    · exact (ih ht).imp_right fun ⟨piece, hpiece, hmem⟩ => ⟨piece, .tail _ hpiece, hmem⟩

theorem Separated.subset {piece : List Token} (h : Separated pieces tokens)
    (hpiece : piece ∈ pieces) : piece ⊆ tokens := by
  induction h with
  | nil => cases hpiece
  | single =>
    cases mem_singleton.1 hpiece
    exact List.Subset.refl _
  | cons _ _ ih =>
    rcases mem_cons.1 hpiece with rfl | hpiece
    · exact subset_append_left _ _
    · exact fun t ht => mem_append_right _ (.tail _ (ih hpiece ht))

/-- Every numeral in a phrase is a word. -/
theorem Derives.not_isOversize {level : Level} {phrase : List Token} (h : Derives level phrase e) :
    ∀ t ∈ phrase, ¬IsOversize t := by
  induction h with
  | tighter _ _ ih => exact ih
  | assign _ hequals _ ihtarget ihvalue =>
    exact forall_mem_append.2
      ⟨ihtarget, forall_mem_cons.2 ⟨not_isOversize_of_ne (by simp [hequals]), ihvalue⟩⟩
  | join hjoins _ _ _ ihleft ihright =>
    have hsign := not_isOversize_of_ne fun hkind => by cases hkind ▸ hjoins
    exact forall_mem_append.2 ⟨ihleft, forall_mem_cons.2 ⟨hsign, ihright⟩⟩
  | operator hprefixes _ ih =>
    have hsign := not_isOversize_of_ne fun hkind => by cases hkind ▸ hprefixes
    exact forall_mem_cons.2 ⟨hsign, ih⟩
  | literal hliteral => exact forall_mem_singleton.2 hliteral.not_isOversize
  | var hkind => exact forall_mem_singleton.2 (not_isOversize_of_ne (by simp [hkind]))
  | call hname hparen _ hseparated hparen' ih =>
    refine forall_mem_cons.2 ⟨not_isOversize_of_ne (by simp [hname]), forall_mem_cons.2
      ⟨not_isOversize_of_ne (by simp [hparen]), forall_mem_append.2 ⟨fun t ht => ?_,
        forall_mem_singleton.2 (not_isOversize_of_ne (by simp [hparen']))⟩⟩⟩
    rcases hseparated.mem_cases ht with hcomma | ⟨piece, hpiece, hmem⟩
    · exact not_isOversize_of_ne (by simp [hcomma])
    · obtain ⟨pair, hpair, rfl⟩ := mem_map.1 hpiece
      exact ih pair hpair t hmem
  | group hparen _ hparen' ih =>
    exact forall_mem_cons.2 ⟨not_isOversize_of_ne (by simp [hparen]), forall_mem_append.2
      ⟨ih, forall_mem_singleton.2 (not_isOversize_of_ne (by simp [hparen']))⟩⟩

/-- What is cut from a text is legible. -/
theorem legible_of_lexed {p : Position} (h : Lexed p cs tokens) : Legible tokens := by
  induction h with
  | stop =>
    refine forall_mem_singleton.2 fun hkind => ?_
    simp [Token.endOfInput] at hkind
  | skip _ _ ih => exact ih
  | token hlexeme _ ih =>
    refine forall_mem_cons.2 ⟨fun _ => .inl ?_, ih⟩
    rw [String.toList_ofList]
    exact ⟨_, hlexeme⟩

/-- An expression takes all tokens up to the end. -/
theorem reads_of_parseExpression {body : List Token} {marker : Token} (hmarker : marker.kind = .eof)
    (hbody : ∀ t ∈ body, t.kind ≠ .eof) (h : parseExpression (body ++ [marker]) = .ok e) :
    Parser.Reads (Parser.expression marker body) e [] := by
  have hread : Parser.Reads (Parser.expression (Parser.endMarker (body ++ [marker]))
      (Parser.content (body ++ [marker]))) e [] := by
    unfold parseExpression at h
    cases hparsed : Parser.expression (Parser.endMarker (body ++ [marker]))
        (Parser.content (body ++ [marker])) with
    | error fault =>
      rw [hparsed] at h
      cases h
    | ok parsed =>
      obtain ⟨value, rest, hshorter⟩ := parsed
      rw [hparsed] at h
      cases rest with
      | cons => cases h
      | nil =>
        cases h
        exact ⟨_, rfl⟩
  rwa [Parser.content_append_marker hmarker hbody,
    Parser.endMarker_append_marker hmarker hbody] at hread

/-- What is parsed as an expression has no numeral that is too large. -/
theorem not_isOversize_of_parseExpression (htokens : tokenize source = .ok tokens)
    (h : parseExpression tokens = .ok e) : ∀ t ∈ tokens, ¬IsOversize t := by
  have hlexed := lexed_of_tokenize htokens
  obtain ⟨body, marker, rfl, hmarker, hbody⟩ := hlexed.exists_marker
  have hlegible : Legible body := fun t ht => legible_of_lexed hlexed t (mem_append_left _ ht)
  obtain ⟨phrase, rfl, hphrase⟩ := (sound marker body hlegible).expression
    (reads_of_parseExpression hmarker hbody h)
  rw [append_nil] at hlexed ⊢
  exact forall_mem_append.2 ⟨hphrase.not_isOversize,
    forall_mem_singleton.2 (not_isOversize_of_ne (by simp [hmarker]))⟩

/-- The smallest word is cut into a sign and a numeral that is too large. -/
theorem cuts_lowest (p : Position) {rest : List Char} (hrest : Apart rest) :
    ∃ tokens p', Cuts p ((Decimal.wordText Int64.minValue).toList ++ rest) tokens p' rest ∧
      ∃ t ∈ tokens, IsOversize t := by
  have hsign : ¬0 ≤ Int64.minValue.toInt := by decide
  have hdigits := Decimal.isNumeral_toDigits (-Int64.minValue.toInt).toNat
  rw [Decimal.toList_wordText, if_neg hsign]
  obtain ⟨t, p₁, hminus, -⟩ := cuts_minus p rest hdigits
  obtain ⟨u, p₂, hcuts, hkind, htext⟩ := cuts_numeral p₁ hdigits hrest
  refine ⟨[t, u], p₂, hminus.trans hcuts, u, .tail _ (.head _), hkind, fun n hn => ?_⟩
  have hdenotes := Decimal.Denotes.natural hdigits
  rw [htext, String.toList_ofList] at hn
  have heq := hn.inj hdenotes
  rw [Nat.ofDigitChars_ten_toDigits] at heq
  have hmagnitude : (((-Int64.minValue.toInt).toNat : Nat) : Int) = 2 ^ 63 := by decide
  have hlt := n.toInt_lt
  omega

end Grammar

namespace Operand

open Grammar

/-! ## What the tokens show -/

/-- The tokens that an operand's text is cut into if its leaves are legible, or one is a numeral
that is too large. -/
def Shows (op : Operand) (tokens : List Token) : Prop :=
  (∀ leaf ∈ op.leaves, leaf.IsLegible) ∨ ∃ t ∈ tokens, IsOversize t

theorem Shows.of_sides {left right : List Token}
    (hleaves : op.leaves = lhs.leaves ++ rhs.leaves) (hl : lhs.Shows left) (hr : rhs.Shows right)
    (hleft : left ⊆ tokens) (hright : right ⊆ tokens) : op.Shows tokens := by
  rcases hl with hl | ⟨t, ht, hoversize⟩
  · rcases hr with hr | ⟨t, ht, hoversize⟩
    · exact .inl (hleaves ▸ forall_mem_append.2 ⟨hl, hr⟩)
    · exact .inr ⟨t, hright ht, hoversize⟩
  · exact .inr ⟨t, hleft ht, hoversize⟩

theorem Shows.of_arguments {callee : String} {args : List Operand} {phrases : List (List Token)}
    (h : List.Forall₂ Shows args phrases)
    (hsubset : ∀ phrase ∈ phrases, phrase ⊆ tokens) : (call callee args).Shows tokens := by
  have hleaves : (call callee args).leaves = leavesAll args := rfl
  unfold Shows
  rw [hleaves]
  induction h with
  | nil => exact .inl (forall_mem_nil _)
  | @cons a phrase args phrases ha _ ih =>
    obtain ⟨hphrase, hphrases⟩ := forall_mem_cons.1 hsubset
    rcases ha with ha | ⟨t, ht, hoversize⟩
    · exact (ih hphrases rfl).imp_left fun hargs => forall_mem_append.2 ⟨ha, hargs⟩
    · exact .inr ⟨t, hphrase ht, hoversize⟩

theorem cutsInto_word (n : Int64) :
    CutsInto (· = none) (Decimal.wordText n).toList (int n).Shows := by
  intro p rest hrest _
  by_cases hn : n = Int64.minValue
  · obtain ⟨tokens, p', hcuts, hoversize⟩ := cuts_lowest p hrest
    exact ⟨tokens, p', hn ▸ hcuts, .inr hoversize⟩
  · obtain ⟨tokens, p', hcuts, -⟩ := spells_word hn p rest hrest
    exact ⟨tokens, p', hcuts, .inl (forall_mem_singleton.2 hn)⟩

theorem cutsInto_text (s : String) : CutsInto (· = none) (text s).render.toList (text s).Shows := by
  by_cases hkept : ∀ c ∈ s.toList, Text.IsKept c
  · exact ((spells_text hkept).cutsInto _).imp
      fun _ _ => .inl (forall_mem_singleton.2 hkept)
  · intro p rest _ hending
    exact absurd hending (Lexer.lexFrom_text (by simpa using hkept) p rest)

theorem cutsInto_sides (op : Operand) {kind : Token.Kind} {symbol : List Char}
    (hleaves : op.leaves = lhs.leaves ++ rhs.leaves)
    (hl : CutsInto (· = none) lhs.render.toList lhs.Shows)
    (hr : CutsInto (· = none) rhs.render.toList rhs.Shows) (hsign : IsSign kind symbol) :
    CutsInto (· = none)
      ('(' :: (lhs.render.toList ++ ' ' :: (symbol ++ ' ' :: (rhs.render.toList ++ [')']))))
      op.Shows := by
  refine (hl.connect hr hsign).imp ?_
  rintro tokens ⟨t, sign, u, left, right, rfl, -, hleft, -, hright, -⟩
  exact Shows.of_sides hleaves hleft hright (by grind) (by grind)

/-- **What a text that can be read shows of its operand.** -/
theorem cutsInto_render (op : Operand) (h : op.BuiltFrom IsExact) :
    CutsInto (· = none) op.render.toList op.Shows := by
  induction op with
  | number n =>
    cases n with
    | int n => exact cutsInto_word n
    | float x => exact absurd (h.leaves (.number (.float x)) (.head _)) id
  | text s => exact cutsInto_text s
  | var name =>
    exact ((spells_var (h.names name (by simp [reads]))).cutsInto _).imp
      fun _ _ => .inl (forall_mem_singleton.2 trivial)
  | binary op lhs rhs ihlhs ihrhs =>
    obtain ⟨_, _, _, -, -, hsign⟩ := exists_joins_binary op
    obtain ⟨hl, hr⟩ := h.sides rfl rfl rfl
    have hcuts := cutsInto_sides (.binary op lhs rhs) rfl (ihlhs hl) (ihrhs hr) hsign
    simpa [render] using hcuts
  | unary op operand ih =>
    obtain ⟨_, -, hsign⟩ := exists_prefixes op
    have htext : (unary op operand).render.toList =
        '(' :: (op.symbol.toList ++ ' ' :: (operand.render.toList ++ [')'])) := by simp [render]
    rw [htext]
    refine ((ih h.unary).apply hsign).imp ?_
    rintro tokens ⟨t, sign, u, inner, rfl, -, -, hinner, -⟩
    rcases hinner with hinner | ⟨v, hv, hoversize⟩
    · exact .inl hinner
    · exact .inr ⟨v, by grind, hoversize⟩
  | logical op lhs rhs ihlhs ihrhs =>
    obtain ⟨_, _, _, -, -, hsign⟩ := exists_joins_logical op
    obtain ⟨hl, hr⟩ := h.sides rfl rfl rfl
    have hcuts := cutsInto_sides (.logical op lhs rhs) rfl (ihlhs hl) (ihrhs hr) hsign
    simpa [render] using hcuts
  | call callee args ih =>
    obtain ⟨hcallee, hargs⟩ := builtFrom_call_iff.1 h
    rw [toList_render_call]
    refine (cutsInto_call hcallee fun a ha => ih a ha (hargs a ha)).imp ?_
    rintro tokens ⟨name, t, u, phrases, inner, rfl, -, -, -, hseparated, hphrases, -⟩
    refine Shows.of_arguments hphrases fun phrase hphrase v hv => ?_
    exact .tail _ (.tail _ (mem_append_left _ (hseparated.subset hphrase hv)))

/-! ## Reading -/

theorem error_eq_none_of_tokenize (h : tokenize source = .ok tokens) :
    (Lexer.lexFrom .start source.toList).2 = none := by
  unfold tokenize lex at h
  split at h
  · cases h
  · rename_i heq
    rw [heq]

/-- An operand other than a number can be read only if it is legible. -/
theorem legible_of_readOperand {read : Operand} (hbuilt : op.BuiltFrom IsExact)
    (hint : ¬∃ n, op = .int n) (h : Linear.readOperand op.render.toList = .ok read) :
    ∀ leaf ∈ op.leaves, leaf.IsLegible := by
  obtain hnumber | ⟨c, hc, hopening⟩ := hbuilt.exists_first
  · exact absurd hnumber hint
  have hnumeric := hopening.isNumericLiteral_eq_false hc
  simp only [Linear.readOperand, (solid_render hbuilt).trim_eq_self, hnumeric,
    String.ofList_toList, Bool.false_eq_true, if_false] at h
  cases htokens : tokenize op.render with
  | error fault => simp [htokens] at h
  | ok tokens =>
    cases hparse : parseExpression tokens with
    | error fault => simp [htokens, hparse] at h
    | ok e =>
      -- the text has tokens, so it is cut as its operand says, and these are all tokens
      have hnone := error_eq_none_of_tokenize htokens
      rw [← append_nil op.render.toList] at hnone
      obtain ⟨phrase, p, hcuts, hshows⟩ :=
        cutsInto_render op hbuilt .start [] Lexer.apart_nil hnone
      rw [append_nil] at hcuts
      have hwhole := Lexer.tokenize_of_cuts hcuts
      rw [htokens] at hwhole
      cases hwhole
      rcases hshows with hlegible | ⟨t, ht, hoversize⟩
      · exact hlegible
      · exact absurd hoversize
          (not_isOversize_of_parseExpression htokens hparse t (mem_append_left _ ht))

/-- **What is read back.** A folded operand without doubles, its names identifiers, is read back
from its text exactly if it is a number or all its leaves are legible. It is never read as another
operand. -/
theorem readOperand_render_iff {op : Operand}
    (hnames : ∀ name ∈ op.reads ++ op.calls, Lexer.IsIdentifier name)
    (hfree : ∀ x, .number (.float x) ∉ op.leaves) (hfolded : op.fold = op) :
    (Linear.readOperand op.render.toList = .ok op ↔
        (∃ n, op = .int n) ∨ ∀ leaf ∈ op.leaves, leaf.IsLegible) ∧
      ∀ read, Linear.readOperand op.render.toList = .ok read → read = op := by
  have hexact : op.BuiltFrom IsExact := by
    refine ⟨hnames, fun leaf hleaf => ?_⟩
    unfold IsExact
    split
    · exact hfree _ hleaf
    · trivial
  have hread (h : (∃ n, op = .int n) ∨ ∀ leaf ∈ op.leaves, leaf.IsLegible) :
      Linear.readOperand op.render.toList = .ok op := by
    have hback := readOperand_render (h.symm.imp_left fun hleaves => ⟨hnames, hleaves⟩)
      (solid_render hexact).trim_eq_self
    rwa [hfolded] at hback
  have hlegible {read : Operand} (h : Linear.readOperand op.render.toList = .ok read) :
      (∃ n, op = .int n) ∨ ∀ leaf ∈ op.leaves, leaf.IsLegible :=
    or_iff_not_imp_left.2 fun hint => legible_of_readOperand hexact hint h
  refine ⟨⟨hlegible, hread⟩, fun read h => ?_⟩
  rw [hread (hlegible h)] at h
  cases h
  rfl

/-- A call with a text with a tab, quotes and a backslash, and with a word of the largest
magnitude. -/
def quoting : Operand :=
  .call "f" [.text "a\t\"b\"\\", .unary .not (.int (-9223372036854775807)), .var "x"]

theorem readOperand_render_iff_quoting :
    Linear.readOperand quoting.render.toList = .ok quoting ∧
      ∀ read, Linear.readOperand quoting.render.toList = .ok read → read = quoting := by
  have hleaves : quoting.leaves = [.text "a\t\"b\"\\", .int (-9223372036854775807), .var "x"] := rfl
  have hlegible : ∀ leaf ∈ quoting.leaves, leaf.IsLegible := by
    have hkept : ("a\t\"b\"\\".toList.all fun c => decide (Text.IsKept c)) = true := by decide
    have hlowest : (-9223372036854775807 : Int64) ≠ Int64.minValue := by decide
    rw [hleaves]
    refine forall_mem_cons.2 ⟨fun c hc => ?_, forall_mem_cons.2
      ⟨hlowest, forall_mem_singleton.2 trivial⟩⟩
    exact of_decide_eq_true (all_eq_true.1 hkept c hc)
  obtain ⟨hiff, honly⟩ := @readOperand_render_iff quoting (by decide +kernel)
    (by simp [hleaves, int]) rfl
  exact ⟨hiff.2 (.inr hlegible), honly⟩

/-- A text with an apostrophe is refused, and so is the smallest word inside of an operand, though
it is read back as a whole operand. -/
theorem readOperand_apostrophe_and_lowest :
    Linear.readOperand (text "it's").render.toList =
        .error (.source ⟨.unknownEscape '\'', 1, 4, "\\'s\""⟩) ∧
      Linear.readOperand (int Int64.minValue).render.toList = .ok (int Int64.minValue) ∧
      (unary .not (int Int64.minValue)).fold = unary .not (int Int64.minValue) ∧
      ∀ read, Linear.readOperand (unary .not (int Int64.minValue)).render.toList ≠ .ok read := by
  have htext : (text "it's").BuiltFrom IsExact :=
    ⟨forall_mem_nil _, forall_mem_singleton.2 trivial⟩
  have hlowest : (unary .not (int Int64.minValue)).BuiltFrom IsExact :=
    ⟨forall_mem_nil _, forall_mem_singleton.2 trivial⟩
  refine ⟨?_, readOperand_render (.inr ⟨_, rfl⟩) (dense_wordText _).solid.trim_eq_self, rfl,
    fun read h => ?_⟩
  · have htokens : tokenize (text "it's").render =
        .error ⟨.unknownEscape '\'', 1, 4, "\\'s\""⟩ := by decide +kernel
    have hnumeric : isNumericLiteral (text "it's").render.toList = false := by decide
    simp only [Linear.readOperand, (solid_render htext).trim_eq_self, hnumeric,
      String.ofList_toList, Bool.false_eq_true, if_false, htokens]
  · have hint : ¬∃ n, unary .not (int Int64.minValue) = int n := by
      rintro ⟨n, hn⟩
      cases hn
    exact legible_of_readOperand hlowest hint h (int Int64.minValue) (.head _) rfl

end Operand

end ImpMachine
