import ImpMachine.Expansion.Engine
import ImpMachine.Proofs.Hygiene
import ImpMachine.Proofs.Lexemes
import Mathlib.Data.Int.Range

/-!
# Unrolling is exact

A loop has a text of its own (`LoopText`): a counter, two bounds, and a body in which braces pair up
(`Braced`). A loop is read exactly where the tokens begin with such a text (`readLoop_eq_ok_iff`),
and its copies are the body once for each number of the range, in order (`unrollLoop_exact`).

Bounds are words, and the smallest word has no negative. It is no bound's number before the sign,
though: source text has no signed numerals, and a numeral that a loop puts in lies in the loop's
range, whose ends are bounds again (`Arises.negatable`). So no arithmetic on bounds leaves its type.
-/

namespace ImpMachine.Expansion

open Decimal List

variable {t keyword : Token} {value : Int64} {counter : String} {first last : Int}
variable {tokens copies after rest body : List Token}

/-! ## The text of a loop -/

/-- Tokens in which braces pair up, without an end marker. -/
inductive Braced : List Token → Prop where
  | nil : Braced []
  | token {t : Token} {rest : List Token} (hopen : t.kind ≠ .lbrace) (hclose : t.kind ≠ .rbrace)
      (hend : t.kind ≠ .eof) (hrest : Braced rest) : Braced (t :: rest)
  | block {brace close : Token} {inner rest : List Token} (hopen : brace.kind = .lbrace)
      (hinner : Braced inner) (hclose : close.kind = .rbrace) (hrest : Braced rest) :
      Braced (brace :: (inner ++ close :: rest))

/-- A bound and its number: an integer that is a word, with an optional minus sign before it. -/
inductive Bound : List Token → Int → Prop where
  | plain {t : Token} {n : Int64} (hkind : t.kind = .integer)
      (htext : Denotes t.text.toList n.toInt) : Bound [t] n.toInt
  | negated {sign t : Token} {n : Int64} (hsign : sign.kind = .minus) (hkind : t.kind = .integer)
      (htext : Denotes t.text.toList n.toInt) : Bound [sign, t] (-n.toInt)

/-- Tokens that begin with a loop behind its keyword: counter, range, body, and the tokens behind
its closing brace. -/
inductive LoopText : List Token → (counter : String) → (first last : Int) →
    (body after : List Token) → Prop where
  | mk {counter word dots brace close : Token} {lower upper body after : List Token}
      {first last : Int} (hcounter : counter.kind = .ident) (hword : word.kind = .kwIn)
      (hfirst : Bound lower first) (hdots : dots.kind = .dotDot) (hlast : Bound upper last)
      (hopen : brace.kind = .lbrace) (hbody : Braced body) (hclose : close.kind = .rbrace) :
      LoopText (counter :: word :: (lower ++ dots :: (upper ++ brace :: (body ++ close :: after))))
        counter.text first last body after

/-- The token as it stands in the copy for a number. -/
def copyFor (counter : String) (value : Int) (t : Token) : Token :=
  if t.kind = .ident ∧ t.text = counter then
    { t with kind := .integer, text := toString value }
  else t

/-! ## Bodies -/

/-- Tokens that close some braces more than they open, with paired braces between. -/
inductive Closes : Nat → List Token → Prop where
  | zero {body : List Token} (hbody : Braced body) : Closes 0 body
  | succ {depth : Nat} {inner rest : List Token} {close : Token} (hinner : Braced inner)
      (hclose : close.kind = .rbrace) (hrest : Closes depth rest) :
      Closes (depth + 1) (inner ++ close :: rest)

section Body

variable {depth : Nat}

theorem splitBody_of_lbrace (h : t.kind = .lbrace) (depth : Nat) :
    splitBody depth (t :: rest) =
      (splitBody (depth + 1) rest).map fun split => (t :: split.1, split.2) := by
  simp only [splitBody, h]

theorem splitBody_succ_of_rbrace (h : t.kind = .rbrace) (depth : Nat) :
    splitBody (depth + 1) (t :: rest) =
      (splitBody depth rest).map fun split => (t :: split.1, split.2) := by
  simp only [splitBody, h]

theorem splitBody_zero_of_rbrace (h : t.kind = .rbrace) :
    splitBody 0 (t :: rest) = some ([], rest) := by
  simp only [splitBody, h]

theorem splitBody_of_ne (hopen : t.kind ≠ .lbrace) (hclose : t.kind ≠ .rbrace)
    (hend : t.kind ≠ .eof) (depth : Nat) :
    splitBody depth (t :: rest) =
      (splitBody depth rest).map fun split => (t :: split.1, split.2) := by
  rw [splitBody.eq_def]
  dsimp only
  split
  · exact absurd ‹_› hend
  · exact absurd ‹_› hopen
  · exact absurd ‹_› hclose
  · rfl

/-- The search for the closing brace passes over paired braces. -/
theorem Braced.splitBody_append (h : Braced body) (depth : Nat) (rest : List Token) :
    splitBody depth (body ++ rest) =
      (splitBody depth rest).map fun split => (body ++ split.1, split.2) := by
  induction h generalizing depth rest with
  | nil => simp
  | token hopen hclose hend _ ih =>
    rw [cons_append, splitBody_of_ne hopen hclose hend, ih]
    simp [Function.comp_def]
  | block hopen _ hclose _ ihinner ihrest =>
    rw [cons_append, append_assoc, splitBody_of_lbrace hopen, ihinner,
      cons_append, splitBody_succ_of_rbrace hclose, ihrest]
    simp [Function.comp_def]

theorem Closes.token (h : Closes depth body) (hopen : t.kind ≠ .lbrace) (hclose : t.kind ≠ .rbrace)
    (hend : t.kind ≠ .eof) : Closes depth (t :: body) := by
  cases h with
  | zero hbody => exact .zero (.token hopen hclose hend hbody)
  | succ hinner hclose' hrest => exact .succ (.token hopen hclose hend hinner) hclose' hrest

theorem Closes.opened (h : Closes (depth + 1) body) (hopen : t.kind = .lbrace) :
    Closes depth (t :: body) := by
  -- the brace pairs with the first of those that were closed too many
  cases h with
  | @succ _ inner rest close hinner hclose hrest =>
    cases hrest with
    | zero hrest => exact .zero (.block hopen hinner hclose hrest)
    | @succ depth inner' rest' close' hinner' hclose' hrest' =>
      have hblock : Braced (t :: (inner ++ close :: inner')) :=
        .block hopen hinner hclose hinner'
      have := Closes.succ hblock hclose' hrest'
      simpa using this

/-- The body of a loop goes up to its closing brace. -/
theorem closes_of_splitBody (h : splitBody depth tokens = some (body, after)) :
    Closes depth body ∧ ∃ close, close.kind = .rbrace ∧ tokens = body ++ close :: after := by
  induction tokens generalizing depth body with
  | nil => cases h
  | cons t rest ih =>
    -- a token of the body, behind which the search goes on at some depth
    have step {d : Nat}
        (h : (splitBody d rest).map (fun split => (t :: split.1, split.2)) = some (body, after)) :
        ∃ inner, body = t :: inner ∧ Closes d inner ∧
          ∃ close, close.kind = .rbrace ∧ rest = inner ++ close :: after := by
      obtain ⟨⟨inner, after'⟩, hsplit, heq⟩ := Option.map_eq_some_iff.1 h
      obtain ⟨rfl, rfl⟩ := Prod.mk.inj heq
      exact ⟨inner, rfl, ih hsplit⟩
    by_cases hopen : t.kind = .lbrace
    · rw [splitBody_of_lbrace hopen] at h
      obtain ⟨inner, rfl, hcloses, close, hclose, rfl⟩ := step h
      exact ⟨hcloses.opened hopen, close, hclose, rfl⟩
    by_cases hclose : t.kind = .rbrace
    · cases depth with
      | zero =>
        rw [splitBody_zero_of_rbrace hclose] at h
        cases h
        exact ⟨.zero .nil, t, hclose, rfl⟩
      | succ depth =>
        rw [splitBody_succ_of_rbrace hclose] at h
        obtain ⟨inner, rfl, hcloses, close, hclose', rfl⟩ := step h
        exact ⟨.succ .nil hclose hcloses, close, hclose', rfl⟩
    by_cases hend : t.kind = .eof
    · simp [splitBody, hend] at h
    · rw [splitBody_of_ne hopen hclose hend] at h
      obtain ⟨inner, rfl, hcloses, close, hclose', rfl⟩ := step h
      exact ⟨hcloses.token hopen hclose hend, close, hclose', rfl⟩

/-- **A body ends at the brace that closes it**: braces pair up before it. -/
theorem splitBody_eq_some_iff :
    splitBody 0 tokens = some (body, after) ↔
      Braced body ∧ ∃ close, close.kind = .rbrace ∧ tokens = body ++ close :: after := by
  constructor
  · intro h
    obtain ⟨hcloses, hclose⟩ := closes_of_splitBody h
    cases hcloses with
    | zero hbody => exact ⟨hbody, hclose⟩
  · rintro ⟨hbody, close, hclose, rfl⟩
    rw [hbody.splitBody_append, splitBody_zero_of_rbrace hclose]
    simp

end Body

/-! ## Numbers that loops put in -/

/-- The tokens that a loop can meet: those of source text, renamed or not, and those of the copies
of loops. -/
inductive Arises : Token → Prop where
  | lexed {source : String} {tokens : List Token} {t : Token}
      (h : tokenize source = .ok tokens) (hmem : t ∈ tokens) : Arises t
  | renamed {t : Token} (depth serial : Nat) (h : Arises t) : Arises (rename depth serial t)
  | copied {keyword t : Token} {tokens copies after : List Token}
      (htokens : ∀ u ∈ tokens, Arises u)
      (h : unrollLoop keyword tokens = .ok (copies, after)) (hmem : t ∈ copies) : Arises t

/-- An integer has a number above the smallest word, so that its negative is a word if it is. -/
def Negatable (t : Token) : Prop :=
  t.kind = .integer → ∃ n, Denotes t.text.toList n ∧ -2 ^ 63 < n

/-- What an integer is read as can be negated. -/
theorem Negatable.neg_of_readWord {n : Int64} (h : Negatable t)
    (hkind : t.kind = .integer) (hread : readWord t.text.toList = .ok n) :
    Denotes t.text.toList n.toInt ∧ (-n).toInt = -n.toInt := by
  obtain ⟨m, hm, hlow⟩ := h hkind
  have hn : Denotes t.text.toList n.toInt := (readWord_eq_ok_iff hm.head?_ne_plus).1 hread
  obtain rfl := hm.inj hn
  refine ⟨hn, toInt_neg_of_ne ?_⟩
  rintro rfl
  exact absurd hlow (by decide)

/-! ## Reading -/

section Reading

variable {text : List Token}

/-- The number of a bound is a word that can be negated. -/
theorem Bound.exists_word {n : Int} (h : Bound text n) (hnegatable : ∀ t ∈ text, Negatable t) :
    -2 ^ 63 < n ∧ ∃ value : Int64, value.toInt = n := by
  cases h with
  | @plain t n hkind htext =>
    obtain ⟨m, hm, hlow⟩ := hnegatable t (mem_singleton_self t) hkind
    rw [hm.inj htext] at hlow
    exact ⟨hlow, n, rfl⟩
  | @negated sign t n _ hkind htext =>
    have hread : readWord t.text.toList = .ok n := (readWord_eq_ok_iff htext.head?_ne_plus).2 htext
    obtain ⟨-, hneg⟩ := (hnegatable t (by simp)).neg_of_readWord hkind hread
    have hhigh := n.toInt_lt
    exact ⟨by omega, -n, hneg⟩

theorem splitSign_cases (tokens : List Token) :
    (∃ sign rest, sign.kind = .minus ∧ tokens = sign :: rest ∧ splitSign tokens = (true, rest)) ∨
      splitSign tokens = (false, tokens) := by
  cases tokens with
  | nil => exact .inr rfl
  | cons t rest =>
    by_cases hsign : t.kind = .minus
    · exact .inl ⟨t, rest, hsign, rfl, if_pos hsign⟩
    · exact .inr (if_neg hsign)

/-- What is read as a bound is written as one. -/
theorem bound_of_readBound (hnegatable : ∀ t ∈ tokens, Negatable t)
    (h : readBound keyword tokens = .ok (value, rest)) :
    ∃ text, Bound text value.toInt ∧ tokens = text ++ rest := by
  unfold readBound at h
  obtain ⟨⟨t, after⟩, ht, h⟩ := bind_eq_ok.1 h
  obtain ⟨hsuffix, hkind⟩ := eq_cons_of_expectToken ht
  have hmem : t ∈ tokens := (splitSign_suffix tokens).subset (hsuffix ▸ mem_cons_self ..)
  dsimp only at h
  split at h
  · rename_i n hread
    obtain ⟨hdenotes, hneg⟩ := (hnegatable t hmem).neg_of_readWord hkind hread
    rcases splitSign_cases tokens with ⟨sign, behind, hsign, rfl, hsplit⟩ | hsplit
    · rw [hsplit] at h hsuffix
      cases h
      refine ⟨[sign, t], ?_, congrArg (sign :: ·) hsuffix.symm⟩
      rw [if_pos rfl, hneg]
      exact .negated hsign hkind hdenotes
    · rw [hsplit] at h hsuffix
      cases h
      exact ⟨[t], .plain hkind hdenotes, hsuffix.symm⟩
  · cases h

/-- Every written bound is read. -/
theorem readBound_of_bound (hnegatable : ∀ t ∈ text, Negatable t)
    (h : Bound text value.toInt) : readBound keyword (text ++ rest) = .ok (value, rest) := by
  generalize hvalue : value.toInt = n at h
  cases h with
  | @plain t n hkind htext =>
    obtain rfl : value = n := Int64.toInt_inj.1 hvalue
    have hread := (readWord_eq_ok_iff htext.head?_ne_plus).2 htext
    simp [readBound, splitSign, expectToken, hkind, hread, bind, Except.bind]
  | @negated sign t n hsign hkind htext =>
    have hread := (readWord_eq_ok_iff htext.head?_ne_plus).2 htext
    obtain ⟨-, hneg⟩ := (hnegatable t (by simp)).neg_of_readWord hkind hread
    obtain rfl : value = -n := Int64.toInt_inj.1 (hvalue.trans hneg.symm)
    simp [readBound, splitSign, expectToken, hsign, hkind, hread, bind, Except.bind]

/-- **A loop is read exactly where its text stands.** -/
theorem readLoop_eq_ok_iff (hnegatable : ∀ t ∈ tokens, Negatable t) {l : Loop} :
    readLoop keyword tokens = .ok l ↔
      LoopText tokens l.counter l.first.toInt l.last.toInt l.body l.after := by
  obtain ⟨name, first, last, body, after⟩ := l
  constructor
  · intro h
    unfold readLoop at h
    obtain ⟨⟨counter, tokens₁⟩, hcounter, h⟩ := bind_eq_ok.1 h
    obtain ⟨⟨word, tokens₂⟩, hword, h⟩ := bind_eq_ok.1 h
    obtain ⟨⟨_, tokens₃⟩, hfirst, h⟩ := bind_eq_ok.1 h
    obtain ⟨⟨dots, tokens₄⟩, hdots, h⟩ := bind_eq_ok.1 h
    obtain ⟨⟨_, tokens₅⟩, hlast, h⟩ := bind_eq_ok.1 h
    obtain ⟨⟨brace, tokens₆⟩, hbrace, h⟩ := bind_eq_ok.1 h
    dsimp only at h
    split at h
    · rename_i hsplit
      cases h
      obtain ⟨rfl, hident⟩ := eq_cons_of_expectToken hcounter
      obtain ⟨rfl, hin⟩ := eq_cons_of_expectToken hword
      obtain ⟨lower, hlower, rfl⟩ :=
        bound_of_readBound (fun t ht => hnegatable t (by simp [ht])) hfirst
      obtain ⟨rfl, hdotDot⟩ := eq_cons_of_expectToken hdots
      obtain ⟨upper, hupper, rfl⟩ :=
        bound_of_readBound (fun t ht => hnegatable t (by simp [ht])) hlast
      obtain ⟨rfl, hopen⟩ := eq_cons_of_expectToken hbrace
      obtain ⟨hbody, close, hclose, rfl⟩ := splitBody_eq_some_iff.1 hsplit
      exact .mk hident hin hlower hdotDot hupper hopen hbody hclose
    · cases h
  · intro h
    cases h with
    | @mk counter word dots brace close lower upper _ _ _ _ hcounter hword hfirst hdots hlast hopen
        hbody hclose =>
      have hlower : ∀ rest, readBound keyword (lower ++ rest) = .ok (first, rest) := fun rest =>
        readBound_of_bound (fun t ht => hnegatable t (by simp [ht])) hfirst
      have hupper : ∀ rest, readBound keyword (upper ++ rest) = .ok (last, rest) := fun rest =>
        readBound_of_bound (fun t ht => hnegatable t (by simp [ht])) hlast
      have hsplit : splitBody 0 (body ++ close :: after) = some (body, after) :=
        splitBody_eq_some_iff.2 ⟨hbody, close, hclose, rfl⟩
      simp [readLoop, expectToken, hcounter, hword, hlower, hdots, hupper, hopen, hsplit, bind,
        Except.bind]

/-- The bounds of a loop are words, and neither is the least one. -/
theorem LoopText.exists_words (h : LoopText tokens counter first last body after)
    (hnegatable : ∀ t ∈ tokens, Negatable t) :
    (-2 ^ 63 < first ∧ ∃ value : Int64, value.toInt = first) ∧
      -2 ^ 63 < last ∧ ∃ value : Int64, value.toInt = last := by
  cases h with
  | mk _ _ hfirst _ hlast =>
    exact ⟨hfirst.exists_word fun t ht => hnegatable t (by simp [ht]),
      hlast.exists_word fun t ht => hnegatable t (by simp [ht])⟩

theorem LoopText.body_subset (h : LoopText tokens counter first last body after) :
    body ⊆ tokens := by
  cases h with
  | mk =>
    intro t ht
    simp [ht]

end Reading

/-! ## Copying -/

/-- The loop variable takes the numbers of the range. -/
theorem Loop.map_toInt_values (l : Loop) :
    l.values.map Int64.toInt = Int.range l.first.toInt (l.last.toInt + 1) := by
  have hlow := l.first.le_toInt
  have hhigh := l.last.toInt_lt
  have hcopies : l.copies = (l.last.toInt + 1 - l.first.toInt).toNat := by
    unfold Loop.copies
    congr 1
    omega
  unfold Loop.values Int.range
  rw [map_map, hcopies]
  refine map_congr_left fun k hk => ?_
  have hk := mem_range.1 hk
  exact Int64.toInt_ofInt_of_le (by omega) (by omega)

theorem Loop.unroll_eq (l : Loop) :
    l.unroll = (Int.range l.first.toInt (l.last.toInt + 1)).flatMap fun value =>
      l.body.map (copyFor l.counter value) := by
  rw [← l.map_toInt_values, flatMap_map]
  rfl

theorem Loop.copies_le_iff (l : Loop) (limit : Nat) :
    l.copies ≤ limit ↔ l.last.toInt < l.first.toInt ∨ l.last.toInt - l.first.toInt + 1 ≤ limit := by
  unfold Loop.copies
  omega

/-- A loop is unrolled if it is read and has not too many copies. -/
theorem unrollLoop_eq_ok_iff :
    unrollLoop keyword tokens = .ok (copies, after) ↔
      ∃ l, readLoop keyword tokens = .ok l ∧ l.copies ≤ maxCopies ∧ l.unroll = copies ∧
        l.after = after := by
  unfold unrollLoop
  rw [bind_eq_ok]
  refine exists_congr fun l => and_congr_right fun _ => ?_
  split
  · rename_i hmany
    simp [Nat.not_le.2 hmany]
  · rename_i hfew
    simp [Nat.not_lt.1 hfew]

/-- A loop's values lie in its range, which ends above the smallest word. -/
theorem negatable_of_unrollLoop (hnegatable : ∀ t ∈ tokens, Negatable t)
    (h : unrollLoop keyword tokens = .ok (copies, after)) : ∀ t ∈ copies, Negatable t := by
  obtain ⟨l, hl, -, rfl, -⟩ := unrollLoop_eq_ok_iff.1 h
  have htext := (readLoop_eq_ok_iff hnegatable).1 hl
  obtain ⟨⟨hfirst, -⟩, -⟩ := htext.exists_words hnegatable
  intro t ht
  obtain ⟨value, hvalue, ht⟩ := mem_flatMap.1 ht
  obtain ⟨u, hu, rfl⟩ := mem_map.1 ht
  unfold Loop.substitute
  split
  · -- the number that was put in is not below the lower bound
    have hrange : value.toInt ∈ Int.range l.first.toInt (l.last.toInt + 1) :=
      l.map_toInt_values ▸ mem_map_of_mem hvalue
    have hle := (Int.mem_range_iff.1 hrange).1
    exact fun _ => ⟨value.toInt, denotes_wordText value, by omega⟩
  · exact hnegatable u (htext.body_subset hu)

theorem negatable_of_lexed {p : Position} {cs : List Char}
    (h : Lexer.Lexed p cs tokens) : ∀ t ∈ tokens, Negatable t := by
  induction h with
  | stop =>
    intro t ht hkind
    obtain rfl := mem_singleton.1 ht
    cases hkind
  | skip _ _ ih => exact ih
  | @token p kind source text after tokens hlexeme _ ih =>
    refine forall_mem_cons.2 ⟨fun hkind => ?_, ih⟩
    obtain rfl : kind = .integer := hkind
    rcases hlexeme.of_openKind (by decide) with
      ⟨-, hdigits⟩ | ⟨hkind, -⟩ | hkind | ⟨hkind, -⟩ | hkind
    · exact ⟨_, .natural (String.toList_ofList ▸ hdigits), by omega⟩
    all_goals cases hkind

/-- **Every integer that a loop can meet can be negated.** -/
theorem Arises.negatable (h : Arises t) : Negatable t := by
  induction h with
  | lexed h hmem => exact negatable_of_lexed (Lexer.lexed_of_tokenize h) _ hmem
  | @renamed t depth serial _ ih =>
    intro hkind
    rw [kind_rename] at hkind
    have hsame : rename depth serial t = t := if_neg (by simp [hkind])
    rw [hsame]
    exact ih hkind
  | copied _ h hmem ih => exact negatable_of_unrollLoop ih h _ hmem

/-- **Unrolling is exact.** It succeeds just if the tokens begin with the text of a loop whose range
is backwards or has no more than `maxCopies` numbers. What it gives is the body once for each number
of the range, in order, with the number in place of the counter, and the tokens behind the closing
brace. No integer has a number without a negative, the number of copies fits a 64-bit count, and the
loop variable takes no other words than the numbers of the range. -/
theorem unrollLoop_exact (keyword : Token) (tokens : List Token)
    (harises : ∀ t ∈ tokens, Arises t) :
    (∀ copies after, unrollLoop keyword tokens = .ok (copies, after) ↔
        ∃ counter first last body, LoopText tokens counter first last body after ∧
          (last < first ∨ last - first + 1 ≤ maxCopies) ∧
          copies = (Int.range first (last + 1)).flatMap fun value =>
            body.map (copyFor counter value)) ∧
      (∀ t ∈ tokens, ∀ n, t.kind = .integer → readWord t.text.toList = .ok n →
        (-n).toInt = -n.toInt) ∧
      ∀ l, readLoop keyword tokens = .ok l → l.copies ≤ maxCount ∧
        l.values.map Int64.toInt = Int.range l.first.toInt (l.last.toInt + 1) := by
  have hnegatable : ∀ t ∈ tokens, Negatable t := fun t ht => (harises t ht).negatable
  refine ⟨fun copies after => ⟨fun h => ?_, ?_⟩, fun t ht n hkind hread => ?_, fun l hl => ?_⟩
  · obtain ⟨l, hl, hcount, rfl, rfl⟩ := unrollLoop_eq_ok_iff.1 h
    exact ⟨l.counter, _, _, l.body, (readLoop_eq_ok_iff hnegatable).1 hl,
      (l.copies_le_iff _).1 hcount, l.unroll_eq⟩
  · -- the numbers of the bounds are words, so the text is that of a loop which can be read
    rintro ⟨counter, first, last, body, htext, hcount, rfl⟩
    obtain ⟨⟨-, first, rfl⟩, -, last, rfl⟩ := htext.exists_words hnegatable
    let l : Loop := ⟨counter, first, last, body, after⟩
    exact unrollLoop_eq_ok_iff.2 ⟨l, (readLoop_eq_ok_iff hnegatable).2 htext,
      (l.copies_le_iff _).2 hcount, l.unroll_eq, rfl⟩
  · exact ((hnegatable t ht).neg_of_readWord hkind hread).2
  · have htext := (readLoop_eq_ok_iff hnegatable).1 hl
    obtain ⟨⟨hfirst, -⟩, -⟩ := htext.exists_words hnegatable
    have hlast := l.last.toInt_lt
    refine ⟨(l.copies_le_iff _).2 (.inr ?_), l.map_toInt_values⟩
    unfold maxCount
    omega

/-- The rest of a loop around a loop with the counter in a bound, after a minus sign. -/
def signedTwice : List Token :=
  [.ofText .ident "i" 1 5, .ofText .kwIn "in" 1 7, .ofText .minus "-" 1 10,
    .ofText .integer "2" 1 11, .ofText .dotDot ".." 1 12, .ofText .minus "-" 1 14,
    .ofText .integer "2" 1 15, .ofText .lbrace "\x7b" 1 17, .ofText .kwFor "for" 1 19,
    .ofText .ident "j" 1 23, .ofText .kwIn "in" 1 25, .ofText .minus "-" 1 28,
    .ofText .ident "i" 1 29, .ofText .dotDot ".." 1 30, .ofText .integer "3" 1 32,
    .ofText .lbrace "\x7b" 1 34, .ofText .ident "i" 1 36, .ofText .ident "j" 1 38,
    .ofText .rbrace "\x7d" 1 40, .ofText .rbrace "\x7d" 1 42, .endOfInput 1 43]

/-- The body of the inner loop in the only copy. -/
def signedTwiceBody : List Token :=
  [⟨.integer, "-2", 1, 36, 1⟩, .ofText .ident "j" 1 38]

/-- The rest of the copy, with a signed integer behind the sign. -/
def signedTwiceCopy : List Token :=
  [.ofText .ident "j" 1 23, .ofText .kwIn "in" 1 25, .ofText .minus "-" 1 28,
    ⟨.integer, "-2", 1, 29, 1⟩, .ofText .dotDot ".." 1 30, .ofText .integer "3" 1 32,
    .ofText .lbrace "\x7b" 1 34] ++ signedTwiceBody ++ [.ofText .rbrace "\x7d" 1 40]

theorem tokenize_signedTwice :
    tokenize "for i in -2..-2 \x7b for j in -i..3 \x7b i j \x7d \x7d" =
      .ok (.ofText .kwFor "for" 1 1 :: signedTwice) := by
  decide +kernel

theorem unrollLoop_signedTwice :
    unrollLoop (.ofText .kwFor "for" 1 1) signedTwice =
      .ok (.ofText .kwFor "for" 1 19 :: signedTwiceCopy, [.endOfInput 1 43]) := by
  decide +kernel

theorem arises_signedTwiceCopy : ∀ t ∈ signedTwiceCopy, Arises t := by
  have hlexed : ∀ t ∈ signedTwice, Arises t := fun t ht =>
    .lexed tokenize_signedTwice (mem_cons_of_mem _ ht)
  exact fun t ht => .copied hlexed unrollLoop_signedTwice (mem_cons_of_mem _ ht)

theorem loopText_signedTwiceCopy : LoopText signedTwiceCopy "j" 2 3 signedTwiceBody [] := by
  have hlower : Bound [.ofText .minus "-" 1 28, ⟨.integer, "-2", 1, 29, 1⟩]
      (-(-2 : Int64).toInt) := .negated rfl rfl (denotes_wordText (-2))
  have hupper : Bound [.ofText .integer "3" 1 32] (3 : Int64).toInt :=
    .plain rfl (denotes_wordText 3)
  have hbody : Braced signedTwiceBody :=
    .token (by decide) (by decide) (by decide) (.token (by decide) (by decide) (by decide) .nil)
  exact .mk rfl rfl hlower rfl hupper rfl hbody rfl

theorem unrollLoop_exact_signedTwice :
    (∀ t ∈ signedTwiceCopy, Arises t) ∧
      unrollLoop (.ofText .kwFor "for" 1 19) signedTwiceCopy =
        .ok ((Int.range 2 4).flatMap fun value => signedTwiceBody.map (copyFor "j" value), []) ∧
      (∀ n, readWord "-2".toList = .ok n → (-n).toInt = -n.toInt) ∧
      ∀ l, readLoop (.ofText .kwFor "for" 1 19) signedTwiceCopy = .ok l → l.copies ≤ maxCount := by
  obtain ⟨hunroll, hneg, hloop⟩ :=
    unrollLoop_exact (.ofText .kwFor "for" 1 19) signedTwiceCopy arises_signedTwiceCopy
  refine ⟨arises_signedTwiceCopy, ?_, fun n => ?_, fun l hl => (hloop l hl).1⟩
  · exact (hunroll _ []).2 ⟨"j", 2, 3, signedTwiceBody, loopText_signedTwiceCopy,
      .inr (by decide), rfl⟩
  · exact hneg ⟨.integer, "-2", 1, 29, 1⟩ (by decide) n rfl

end ImpMachine.Expansion
