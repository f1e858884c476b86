import ImpMachine.Proofs.Lexemes

/-!
# Texts with known tokens

A text is read off from its front: `Cuts` says that reading a text gives certain tokens first and
then goes on with a given rest. A name or a numeral is cut off whole when what follows it could not
belong to it (`Apart`), and an operator sign when a blank follows. What stands between quotes is cut
off whatever follows. So every lexeme is read again as itself when it is set off by a blank
(`Lexeme.cuts`).
-/

namespace ImpMachine.Lexer

open List

open Decimal (IsNumeral)

variable {c value d : Char} {kind : Token.Kind} {rest source text digits cs word body : List Char}
variable {tokens : List Token} {p p' : Position}

/-- Reading `cs` at `p` gives the tokens and goes on with `rest` at `p'`. -/
def Cuts (p : Position) (cs : List Char) (tokens : List Token) (p' : Position)
    (rest : List Char) : Prop :=
  lexFrom p cs = (tokens ++ (lexFrom p' rest).1, (lexFrom p' rest).2)

/-- One part of the text, then the next. -/
theorem Cuts.trans {p'' : Position} {rest' : List Char} {tokens' : List Token}
    (h : Cuts p cs tokens p' rest) (h' : Cuts p' rest tokens' p'' rest') :
    Cuts p cs (tokens ++ tokens') p'' rest' := by
  unfold Cuts at *
  rw [h, h', append_assoc]

/-- The rest decides whether the reading ends in an error. -/
theorem Cuts.error_eq (h : Cuts p cs tokens p' rest) : (lexFrom p cs).2 = (lexFrom p' rest).2 := by
  rw [h]

theorem cuts_blank (p : Position) (rest : List Char) (h : Text.isBlank c = true) :
    ∃ p', Cuts p (c :: rest) [] p' rest := by
  have hscan : scan c rest = .ok (.gap 1) := by simp [scan, h]
  refine ⟨p.after [c], ?_⟩
  unfold Cuts
  rw [lexFrom.eq_def]
  simp [hscan]

/-- A lexeme is cut off as one token. -/
theorem cuts_lexeme (p : Position)
    (h : scan c (source ++ rest) = .ok (.lexeme kind text (source.length + 1))) :
    ∃ t p', Cuts p (c :: (source ++ rest)) [t] p' rest ∧ t.kind = kind ∧
      t.text = String.ofList text := by
  refine ⟨⟨kind, String.ofList text, p.line, p.col, source.length + 1⟩, p.after (c :: source), ?_,
    rfl, rfl⟩
  unfold Cuts
  rw [lexFrom.eq_def]
  simp [h]

/-- A text that is cut up to its end is tokenized. -/
theorem tokenize_of_cuts {source : String} (h : Cuts .start source.toList tokens p []) :
    tokenize source = .ok (tokens ++ [Token.endOfInput p.line p.col]) := by
  unfold tokenize lex
  rw [h, lexFrom.eq_def]

/-! ## Names and numerals -/

/-- A word that is not a keyword. -/
def IsIdentifier (name : String) : Prop :=
  IsWord name.toList ∧ Token.Kind.ofKeyword? name = none

instance (name : String) : Decidable (IsIdentifier name) :=
  inferInstanceAs (Decidable (_ ∧ _))

/-- What follows belongs neither to a name nor to a number. -/
def Apart (rest : List Char) : Prop :=
  ∀ c, rest.head? = some c → isNameChar c = false ∧ c ≠ '.'

theorem apart_nil : Apart [] := by
  intro c hc
  cases hc

theorem apart_cons (rest : List Char) (h : c ∈ [' ', '(', ')', ',']) : Apart (c :: rest) := by
  intro d hd
  cases hd
  simp only [mem_cons, not_mem_nil, or_false] at h
  rcases h with rfl | rfl | rfl | rfl <;> decide

theorem toNat_of_isDigit (h : c.isDigit = true) : 48 ≤ c.toNat ∧ c.toNat ≤ 57 := by
  simpa [Char.isDigit, UInt32.le_iff_toNat_le] using h

/-- Names start with a letter or an underscore. -/
theorem toNat_of_isNameStart (h : isNameStart c = true) :
    (65 ≤ c.toNat ∧ c.toNat ≤ 90) ∨ (97 ≤ c.toNat ∧ c.toNat ≤ 122) ∨ c.toNat = 95 := by
  have hletter : ((c.isUpper || c.isLower) || c == '_') = true := h
  simp only [Bool.or_eq_true, beq_iff_eq] at hletter
  rcases hletter with (hupper | hlower) | rfl
  · exact .inl (of_decide_eq_true hupper)
  · obtain ⟨hlow, hhigh⟩ := Bool.and_eq_true_iff.1 hlower
    exact .inr (.inl ⟨of_decide_eq_true hlow, of_decide_eq_true hhigh⟩)
  · exact .inr (.inr rfl)

/-- Names and numerals do not start with a blank. -/
theorem isBlank_eq_false (h : isNameStart c = true ∨ c.isDigit = true) :
    Text.isBlank c = false := by
  have hrange : 33 ≤ c.toNat ∧ c.toNat ≤ 126 := by
    rcases h with h | h
    · have := toNat_of_isNameStart h
      omega
    · have := toNat_of_isDigit h
      omega
  simp only [Text.isBlank, Bool.or_eq_false_iff, Bool.and_eq_false_iff, decide_eq_false_iff_not,
    beq_eq_false_iff_ne]
  omega

theorem isBlank_of_isNameChar (h : isNameChar c = true) : Text.isBlank c = false := by
  refine isBlank_eq_false ?_
  simp only [isNameChar, isNameStart, Char.isAlphanum, Bool.or_eq_true] at h ⊢
  exact or_right_comm.1 h

/-- What follows is a blank or nothing. -/
def SetOff (rest : List Char) : Prop :=
  ∀ c, rest.head? = some c → Text.isBlank c = true

theorem setOff_cons (rest : List Char) (h : Text.isBlank c = true) : SetOff (c :: rest) := by
  intro d hd
  cases hd
  exact h

theorem SetOff.apart (h : SetOff rest) : Apart rest := by
  intro c hc
  have hblank := h c hc
  refine ⟨?_, ?_⟩
  · by_contra hname
    rw [isBlank_of_isNameChar (by simpa using hname)] at hblank
    cases hblank
  · rintro rfl
    exact absurd hblank (by decide)

theorem scanComment?_eq_none (rest : List Char) (h : c ≠ '/') : scanComment? c rest = none := by
  unfold scanComment?
  split
  · exact absurd rfl h
  · exact absurd rfl h
  · rfl

/-- A word is a keyword or an identifier. -/
theorem cuts_word (p : Position) (hword : IsWord word) (hrest : Apart rest) :
    ∃ t p', Cuts p (word ++ rest) [t] p' rest ∧
      t.kind = (Token.Kind.ofKeyword? (String.ofList word)).getD .ident ∧
      t.text = String.ofList word := by
  obtain ⟨⟨c, hc, hstart⟩, hall⟩ := hword
  obtain ⟨source, rfl⟩ := List.head?_eq_some_iff.1 hc
  obtain ⟨htake, -⟩ := takeWhile_dropWhile_append hall fun d hd => (hrest d hd).1
  rw [cons_append] at htake
  have hrange := toNat_of_isNameStart hstart
  have hslash : c ≠ '/' := by
    rintro rfl
    simp at hrange
  have hdigit : c.isDigit = false := by
    by_contra hdigit
    have := toNat_of_isDigit (by simpa using hdigit)
    omega
  -- the tests that `scan` makes before the one for a name all fail
  refine cuts_lexeme p ?_
  simp [scan, isBlank_eq_false (.inl hstart), scanComment?_eq_none _ hslash, hdigit, hstart,
    scanWord, htake]

theorem Apart.isDigit_eq_false (h : Apart rest) (hc : rest.head? = some c) : c.isDigit = false := by
  have hname := (h c hc).1
  simp only [isNameChar, Char.isAlphanum, Bool.or_eq_false_iff] at hname
  exact hname.1.2

theorem scan_of_isDigit (rest : List Char) (h : c.isDigit = true) :
    scan c rest = .ok (scanNumber (c :: rest)) := by
  have hslash : c ≠ '/' := by
    rintro rfl
    exact absurd h (by decide)
  simp [scan, isBlank_eq_false (.inr h), scanComment?_eq_none _ hslash, h]

/-- A numeral is one token. -/
theorem cuts_numeral (p : Position) (hdigits : IsNumeral digits) (hrest : Apart rest) :
    ∃ t p', Cuts p (digits ++ rest) [t] p' rest ∧ t.kind = .integer ∧
      t.text = String.ofList digits := by
  obtain ⟨hne, hall⟩ := hdigits
  obtain ⟨c, source, rfl⟩ := exists_cons_of_ne_nil hne
  obtain ⟨htake, hdrop⟩ := takeWhile_dropWhile_append hall fun d hd => hrest.isDigit_eq_false hd
  rw [cons_append] at htake hdrop
  have hscan : scanNumber (c :: (source ++ rest)) =
      .lexeme .integer (c :: source) (source.length + 1) := by
    unfold scanNumber
    dsimp only
    rw [hdrop, htake]
    split
    · rename_i d later hdot
      exact absurd rfl (hrest '.' rfl).2
    · rfl
  refine cuts_lexeme p ?_
  rw [scan_of_isDigit _ (hall c (.head _)), hscan]

/-- Two numerals around a point are one token. -/
theorem cuts_float (p : Position) {whole fraction : List Char} (hwhole : IsNumeral whole)
    (hfraction : IsNumeral fraction) (hrest : Apart rest) :
    ∃ t p', Cuts p (whole ++ '.' :: fraction ++ rest) [t] p' rest ∧ t.kind = .float ∧
      t.text = String.ofList (whole ++ '.' :: fraction) := by
  obtain ⟨hne, hall⟩ := hwhole
  obtain ⟨hne', hall'⟩ := hfraction
  obtain ⟨c, source, rfl⟩ := exists_cons_of_ne_nil hne
  obtain ⟨d, later, rfl⟩ := exists_cons_of_ne_nil hne'
  have hpoint : ∀ e, ('.' :: d :: (later ++ rest)).head? = some e → e.isDigit = false := by
    rintro e ⟨⟩
    decide
  obtain ⟨htake, hdrop⟩ := takeWhile_dropWhile_append hall hpoint
  obtain ⟨htake', -⟩ := takeWhile_dropWhile_append
    (fun e he => hall' e (.tail _ he)) fun e he => hrest.isDigit_eq_false he
  rw [cons_append] at htake hdrop
  have hscan : scan c (source ++ '.' :: d :: later ++ rest) =
      .ok (.lexeme .float (c :: source ++ '.' :: d :: later)
        ((source ++ '.' :: d :: later).length + 1)) := by
    rw [scan_of_isDigit _ (hall c (.head _))]
    simp [scanNumber, htake, hdrop, hall' d (.head _), htake']
  exact cuts_lexeme p hscan

theorem cuts_directive (p : Position) (hword : IsWord word) (hrest : Apart rest) :
    ∃ t p', Cuts p ('#' :: word ++ rest) [t] p' rest ∧ t.kind = .directive ∧
      t.text = String.ofList ('#' :: word) := by
  obtain ⟨⟨c, hc, hstart⟩, hall⟩ := hword
  obtain ⟨source, rfl⟩ := List.head?_eq_some_iff.1 hc
  obtain ⟨htake, -⟩ := takeWhile_dropWhile_append hall fun d hd => (hrest d hd).1
  have hscan : scan '#' (c :: source ++ rest) = scanDirective (c :: source ++ rest) := rfl
  refine cuts_lexeme p ?_
  rw [hscan]
  simp only [scanDirective, htake]
  simp [hstart]

/-! ## Quotes -/

theorem unescape_of_escape {quote : Char} (hquote : quote ∈ ['"', '\''])
    (h : Escape quote c value) : unescape quote c = .ok value := by
  cases h with
  | quote =>
    simp only [mem_cons, not_mem_nil, or_false] at hquote
    rcases hquote with rfl | rfl <;> rfl
  | lineFeed | tab | carriageReturn | null | backslash => rfl

/-- What stands for characters of a string is read as these. -/
theorem scanString_append (h : Contents '"' body text) (offset : Nat) (rest : List Char) :
    scanString offset (body ++ rest) =
      (scanString (offset + body.length) rest).map (Prod.map (text ++ ·) id) := by
  induction h generalizing offset with
  | nil =>
    rw [nil_append, length_nil, Nat.add_zero]
    cases scanString offset rest <;> rfl
  | @plain c body text hquote hslash hline _ ih =>
    have hnext : scanString offset (c :: (body ++ rest)) =
        (scanString (offset + 1) (body ++ rest)).map (Prod.map (c :: ·) id) := by
      rw [scanString]
      · exact if_neg hline
      · exact hquote
      · exact fun heq _ => hslash heq
      · exact fun _ _ heq _ => hslash heq
    rw [cons_append, hnext, ih, length_cons, Nat.add_assoc, Nat.add_comm 1]
    cases scanString (offset + (body.length + 1)) rest <;> rfl
  | @escaped c value body text hescape _ ih =>
    have hnext : scanString offset ('\\' :: c :: (body ++ rest)) =
        (scanString (offset + 2) (body ++ rest)).map (Prod.map (value :: ·) id) := by
      rw [scanString, unescape_of_escape (by decide) hescape]
      rfl
    rw [cons_append, cons_append, hnext, ih, length_cons, length_cons,
      Nat.add_assoc, Nat.add_comm 2]
    cases scanString (offset + (body.length + 2)) rest <;> rfl

/-- A text between quotes is one token. -/
theorem cuts_string (p : Position) (rest : List Char) (h : Contents '"' body text) :
    ∃ t p', Cuts p ('"' :: (body ++ ['"']) ++ rest) [t] p' rest ∧ t.kind = .str ∧
      t.text = String.ofList text := by
  have hscan : scan '"' (body ++ ['"'] ++ rest) =
      .ok (.lexeme .str text ((body ++ ['"']).length + 1)) := by
    have hstring : scan '"' (body ++ ['"'] ++ rest) =
        (scanString 1 (body ++ ['"'] ++ rest)).map fun r => .lexeme .str r.1 r.2 := rfl
    rw [hstring, append_assoc, singleton_append, scanString_append h]
    simp [scanString, Except.map, Nat.add_comm, Nat.add_left_comm]
  exact cuts_lexeme p hscan

theorem scanChar_append (h : Contents '\'' body [value])
    (rest : List Char) : scanChar (body ++ '\'' :: rest) = .ok (value, body.length + 2) := by
  cases h with
  | plain hquote hslash hline hbody =>
    cases hbody
    rw [cons_append, nil_append, scanChar]
    · simp [hquote, hline]
    · exact fun heq _ => hslash heq
    · exact fun _ _ heq _ => hslash heq
  | escaped hescape hbody =>
    cases hbody
    rw [cons_append, cons_append, nil_append, scanChar,
      unescape_of_escape (by decide) hescape]
    simp

theorem cuts_char (p : Position) (rest : List Char) (h : Contents '\'' body [value]) :
    ∃ t p', Cuts p ('\'' :: (body ++ ['\'']) ++ rest) [t] p' rest ∧ t.kind = .char ∧
      t.text = String.ofList [value] := by
  have hscan : scan '\'' (body ++ ['\''] ++ rest) =
      .ok (.lexeme .char [value] ((body ++ ['\'']).length + 1)) := by
    have hchar : scan '\'' (body ++ ['\''] ++ rest) =
        (scanChar (body ++ ['\''] ++ rest)).map fun r => .lexeme .char [r.1] r.2 := rfl
    rw [hchar, append_assoc, singleton_append, scanChar_append h]
    simp [Except.map]
  exact cuts_lexeme p hscan

/-! ## Signs -/

/-- A character that starts neither a gap nor a lexeme other than a sign. -/
def IsSignStart (c : Char) : Prop :=
  Text.isBlank c = false ∧ c.isDigit = false ∧ isNameStart c = false ∧ c ≠ '"' ∧ c ≠ '\'' ∧ c ≠ '#'

instance (c : Char) : Decidable (IsSignStart c) :=
  inferInstanceAs (Decidable (_ ∧ _))

theorem scan_eq_scanOperator (h : IsSignStart c)
    (hcomment : scanComment? c rest = none) : scan c rest = scanOperator c rest := by
  obtain ⟨hblank, hdigit, hname, hstring, hchar, hdirective⟩ := h
  simp [scan, hblank, hcomment, hdigit, hname, hstring, hchar, hdirective]

theorem scan_single (h : singleKind? c = some kind) (hcomment : scanComment? c rest = none)
    (hpair : rest.head?.bind (pairKind? c) = none) : scan c rest = .ok (.lexeme kind [c] 1) := by
  have hstart : IsSignStart c := by
    unfold singleKind? at h
    split at h <;> cases h <;> decide
  rw [scan_eq_scanOperator hstart hcomment]
  simp [scanOperator, hpair, h]

theorem scan_pair (rest : List Char)
    (h : pairKind? c d = some kind) : scan c (d :: rest) = .ok (.lexeme kind [c, d] 2) := by
  have hstart : IsSignStart c ∧ c ≠ '/' := by
    unfold pairKind? at h
    split at h <;> cases h <;> decide
  rw [scan_eq_scanOperator hstart.1 (scanComment?_eq_none _ hstart.2)]
  simp [scanOperator, h]

theorem cuts_single (p : Position) (h : singleKind? c = some kind)
    (hcomment : scanComment? c rest = none) (hpair : rest.head?.bind (pairKind? c) = none) :
    ∃ t p', Cuts p ([c] ++ rest) [t] p' rest ∧ t.kind = kind ∧ t.text = String.ofList [c] := by
  have hscan : scan c ([] ++ rest) = .ok (.lexeme kind [c] (List.length ([] : List Char) + 1)) :=
    scan_single h hcomment hpair
  exact cuts_lexeme p hscan

/-- A sign of two characters. -/
theorem cuts_pair (p : Position) (rest : List Char) (h : pairKind? c d = some kind) :
    ∃ t p', Cuts p ([c, d] ++ rest) [t] p' rest ∧ t.kind = kind ∧
      t.text = String.ofList [c, d] := by
  have hscan : scan c ([d] ++ rest) = .ok (.lexeme kind [c, d] ([d].length + 1)) :=
    scan_pair rest h
  exact cuts_lexeme p hscan

/-- A sign of one character before a blank. -/
theorem cuts_single_setOff (p : Position) (h : singleKind? c = some kind) (hrest : SetOff rest) :
    ∃ t p', Cuts p ([c] ++ rest) [t] p' rest ∧ t.kind = kind ∧ t.text = String.ofList [c] := by
  have hdifferent : ∀ d, Text.isBlank d = false → rest.head? ≠ some d := by
    intro d hd heq
    rw [hrest d heq] at hd
    cases hd
  refine cuts_single p h ?_ (Option.bind_eq_none_iff.2 fun d hd => ?_)
  · unfold scanComment?
    split
    · exact absurd rfl (hdifferent '/' (by decide))
    · exact absurd rfl (hdifferent '*' (by decide))
    · rfl
  · unfold pairKind?
    split
    case h_9 => rfl
    all_goals exact absurd hd (hdifferent _ (by decide))

/-- **A lexeme is read as itself**, if a blank or nothing follows. -/
theorem Lexeme.cuts (h : Lexeme kind source text) (hrest : SetOff rest) (p : Position) :
    ∃ t p', Cuts p (source ++ rest) [t] p' rest ∧ t.kind = kind ∧ t.text = String.ofList text := by
  cases h with
  | integer hdigits => exact cuts_numeral p hdigits hrest.apart
  | float hwhole hfraction => exact cuts_float p hwhole hfraction hrest.apart
  | word hword => exact cuts_word p hword hrest.apart
  | string hbody => exact cuts_string p rest hbody
  | char hbody => exact cuts_char p rest hbody
  | directive hword => exact cuts_directive p hword hrest.apart
  | pair hkind => exact cuts_pair p rest hkind
  | single hkind => exact cuts_single_setOff p hkind hrest

/-- A parenthesis or a comma, whatever follows. -/
theorem cuts_delimiter (p : Position) (rest : List Char) (hc : c ∈ ['(', ')', ','])
    (h : singleKind? c = some kind) : ∃ t p', Cuts p (c :: rest) [t] p' rest ∧ t.kind = kind := by
  have hcomment : c ≠ '/' := by
    rintro rfl
    exact absurd hc (by decide)
  have hpair : rest.head?.bind (pairKind? c) = none := by
    refine Option.bind_eq_none_iff.2 fun d _ => ?_
    simp only [mem_cons, not_mem_nil, or_false] at hc
    rcases hc with rfl | rfl | rfl <;> rfl
  obtain ⟨t, p', hcuts, hkind, -⟩ := cuts_single p h (scanComment?_eq_none _ hcomment) hpair
  exact ⟨t, p', hcuts, hkind⟩

/-- A minus sign before a digit. -/
theorem cuts_minus (p : Position) (rest : List Char) (hdigits : IsNumeral digits) :
    ∃ t p', Cuts p ('-' :: (digits ++ rest)) [t] p' (digits ++ rest) ∧ t.kind = .minus := by
  obtain ⟨c, digits, rfl⟩ := exists_cons_of_ne_nil hdigits.1
  have hne : c ≠ '>' := by
    rintro rfl
    exact absurd (hdigits.2 '>' (.head _)) (by decide)
  have hpair : (c :: digits ++ rest).head?.bind (pairKind? '-') = none := by
    unfold pairKind?
    simp [hne]
  obtain ⟨t, p', hcuts, hkind, -⟩ :=
    cuts_single p (show singleKind? '-' = some .minus from rfl)
      (scanComment?_eq_none _ (by decide)) hpair
  exact ⟨t, p', hcuts, hkind⟩

end ImpMachine.Lexer
