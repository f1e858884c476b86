import ImpMachine.Result
import ImpMachine.Token.SourceError

/-!
# Unrolling counted loops

`for ID in A..B { body }` stands for `B - A + 1` copies of its body, one for each value of the
range, with the value in place of the loop variable. The loop is read off a token list, and its
copies are a token list again.

Copies may hold further loops, so the length of a list is no bound on the work left. `weight` is:
a token counts more the deeper it stands in braces, and one level outweighs every permitted number
of copies. Main statement: the copies of a loop and the tokens after it both weigh less than the
loop (`weight_lt_of_unrollLoop`).
-/

namespace ImpMachine.Expansion

/-- A loop read off a token list, and the tokens after it. -/
structure Loop where
  counter : String
  first : Int64
  last : Int64
  body : List Token
  after : List Token

/-! ## Reading -/

/-- Splits the tokens after an opening brace at the brace that closes it, when `depth` braces have
been opened since. There is no such brace past an end marker. -/
def splitBody (depth : Nat) : List Token → Option (List Token × List Token)
  | [] => none
  | t :: rest =>
    match t.kind with
    | .eof => none
    | .lbrace => (splitBody (depth + 1) rest).map fun (body, after) => (t :: body, after)
    | .rbrace =>
      match depth with
      | 0 => some ([], rest)
      | depth + 1 => (splitBody depth rest).map fun (body, after) => (t :: body, after)
    | _ => (splitBody depth rest).map fun (body, after) => (t :: body, after)

/-- Takes a token of the given kind. A loop that ends too early is reported at its keyword. -/
def expectToken (keyword : Token) (kind : Token.Kind) (what : String) :
    List Token → Except SourceError (Token × List Token)
  | [] => .error (.atToken keyword (.malformedLoop what none))
  | t :: rest =>
    if t.kind = kind then .ok (t, rest)
    else .error (.atToken t (.malformedLoop what (some t)))

/-- Splits a leading minus sign off. -/
def splitSign : List Token → Bool × List Token
  | t :: rest => if t.kind = .minus then (true, rest) else (false, t :: rest)
  | [] => (false, [])

/-- Reads a bound: an integer with an optional minus sign before it. -/
def readBound (keyword : Token) (tokens : List Token) :
    Except SourceError (Int64 × List Token) := do
  let (t, rest) ← expectToken keyword .integer "integer bound" (splitSign tokens).2
  match Decimal.readWord t.text.toList with
  | .ok value => .ok (if (splitSign tokens).1 then -value else value, rest)
  | .error _ => .error (.atToken t .loopBoundOutOfRange)

/-- Reads what follows the keyword of a loop. -/
def readLoop (keyword : Token) (tokens : List Token) : Except SourceError Loop := do
  let (counter, tokens) ← expectToken keyword .ident "loop variable" tokens
  let (_, tokens) ← expectToken keyword .kwIn "'in'" tokens
  let (first, tokens) ← readBound keyword tokens
  let (_, tokens) ← expectToken keyword .dotDot "'..'" tokens
  let (last, tokens) ← readBound keyword tokens
  let (_, tokens) ← expectToken keyword .lbrace "'\x7b'" tokens
  match splitBody 0 tokens with
  | some (body, after) => .ok ⟨counter.text, first, last, body, after⟩
  | none => .error (.atToken keyword .unterminatedLoopBody)

/-! ## Copying -/

namespace Loop

/-- The number of copies: the length of the range, none when it runs backwards. -/
def copies (l : Loop) : Nat :=
  (l.last.toInt - l.first.toInt + 1).toNat

/-- The values of the loop variable, in order. -/
def values (l : Loop) : List Int64 :=
  (List.range l.copies).map fun (k : Nat) => Int64.ofInt (l.first.toInt + k)

/-- The token with the value in place of the loop variable. Its place and length stay. -/
def substitute (counter : String) (value : Int64) (t : Token) : Token :=
  if t.kind = .ident ∧ t.text = counter then
    { t with kind := .integer, text := Decimal.wordText value }
  else t

/-- The body once for each value. -/
def unroll (l : Loop) : List Token :=
  l.values.flatMap fun value => l.body.map (substitute l.counter value)

end Loop

/-- The copies of the loop after `keyword` and the tokens after it. A number of copies that does
not fit the 64-bit counter is reported as the largest one that does. -/
def unrollLoop (keyword : Token) (tokens : List Token) :
    Except SourceError (List Token × List Token) := do
  let loop ← readLoop keyword tokens
  if maxCopies < loop.copies then
    .error (.atToken keyword
      (.tooManyCopies loop.first loop.last (min loop.copies Decimal.maxCount)))
  else
    .ok (loop.unroll, loop.after)

/-! ## Weight -/

/-- The brace depth after a token of the given kind. -/
def depthAfter (kind : Token.Kind) (depth : Nat) : Nat :=
  match kind with
  | .lbrace => depth + 1
  | .rbrace => depth - 1
  | _ => depth

/-- The brace depth after a token list. -/
def finalDepth (depth : Nat) (tokens : List Token) : Nat :=
  tokens.foldl (fun depth t => depthAfter t.kind depth) depth

/-- The weight of one token at the given brace depth. -/
def tokenWeight : Nat → Nat
  | 0 => 1
  | depth + 1 => (maxCopies + 1) * tokenWeight depth

/-- The weight of a token list that starts at the given brace depth. -/
def weight (depth : Nat) : List Token → Nat
  | [] => 0
  | t :: rest => tokenWeight depth + weight (depthAfter t.kind depth) rest

theorem tokenWeight_mono {d e : Nat} (h : d ≤ e) : tokenWeight d ≤ tokenWeight e := by
  induction h with
  | refl => exact Nat.le_refl _
  | step _ ih => exact Nat.le_trans ih (Nat.le_mul_of_pos_left _ (Nat.succ_pos _))

theorem depthAfter_mono (kind : Token.Kind) {d e : Nat} (h : d ≤ e) :
    depthAfter kind d ≤ depthAfter kind e := by
  unfold depthAfter
  split <;> omega

theorem weight_mono (ts : List Token) {d e : Nat} (h : d ≤ e) : weight d ts ≤ weight e ts := by
  induction ts generalizing d e with
  | nil => exact Nat.le_refl _
  | cons t rest ih =>
    exact Nat.add_le_add (tokenWeight_mono h) (ih (depthAfter_mono t.kind h))

theorem weight_append (d : Nat) (xs ys : List Token) :
    weight d (xs ++ ys) = weight d xs + weight (finalDepth d xs) ys := by
  induction xs generalizing d with
  | nil => simp [weight, finalDepth]
  | cons t rest ih =>
    simp only [List.cons_append, weight, finalDepth, List.foldl_cons]
    rw [ih, Nat.add_assoc]
    rfl

/-- The rest of a list weighs no more than the list. -/
theorem weight_le_of_suffix {xs ys : List Token} (h : ys <:+ xs) : weight 0 ys ≤ weight 0 xs := by
  obtain ⟨front, rfl⟩ := h
  rw [weight_append]
  exact Nat.le_trans (weight_mono ys (Nat.zero_le _)) (Nat.le_add_left _ _)

/-- The start of a list weighs no more than the list. -/
theorem weight_le_append (d : Nat) (xs ys : List Token) : weight d xs ≤ weight d (xs ++ ys) := by
  rw [weight_append]
  exact Nat.le_add_right _ _

/-- The tokens after the first weigh less than the list. -/
theorem weight_lt_cons (t : Token) (ts : List Token) : weight 0 ts < weight 0 (t :: ts) := by
  have := weight_mono ts (Nat.zero_le (depthAfter t.kind 0))
  simp only [weight, tokenWeight]
  omega

/-- One step of a split: the first token closes the body, or belongs to it and moves the depth. -/
theorem splitBody_cons_cases {depth : Nat} {t : Token} {rest body after : List Token}
    (h : splitBody depth (t :: rest) = some (body, after)) :
    (depth = 0 ∧ body = [] ∧ after = rest) ∨
      ∃ d b, body = t :: b ∧ splitBody d rest = some (b, after) ∧
        ∀ k, depthAfter t.kind (depth + k) = d + k := by
  have inner {d : Nat} (hd : ∀ k, depthAfter t.kind (depth + k) = d + k)
      (h : (splitBody d rest).map (fun (b, a) => (t :: b, a)) = some (body, after)) :
      ∃ d b, body = t :: b ∧ splitBody d rest = some (b, after) ∧
        ∀ k, depthAfter t.kind (depth + k) = d + k := by
    obtain ⟨⟨b, a⟩, hsplit, heq⟩ := Option.map_eq_some_iff.1 h
    obtain ⟨rfl, rfl⟩ := Prod.mk.inj heq
    exact ⟨d, b, rfl, hsplit, hd⟩
  unfold splitBody at h
  split at h
  · simp at h
  · rename_i hkind
    exact .inr (inner (fun k => by simp only [depthAfter, hkind]; omega) h)
  · rename_i hkind
    cases depth with
    | zero =>
      obtain ⟨rfl, rfl⟩ := Prod.mk.inj (Option.some.inj h)
      exact .inl ⟨rfl, rfl, rfl⟩
    | succ d => exact .inr (inner (fun k => by simp only [depthAfter, hkind]; omega) h)
  · rename_i hopen hclose
    refine .inr (inner (fun k => ?_) h)
    unfold depthAfter
    split
    · exact absurd ‹_› hopen
    · exact absurd ‹_› hclose
    · rfl

/-- A body is followed by its closing brace. -/
theorem eq_append_of_splitBody {depth : Nat} {ts body after : List Token}
    (h : splitBody depth ts = some (body, after)) : ∃ close, ts = body ++ close :: after := by
  induction ts generalizing depth body with
  | nil => simp [splitBody] at h
  | cons t rest ih =>
    obtain ⟨-, rfl, rfl⟩ | ⟨d, b, rfl, hb, -⟩ := splitBody_cons_cases h
    · exact ⟨t, rfl⟩
    · obtain ⟨close, rfl⟩ := ih hb
      exact ⟨close, rfl⟩

/-- A body closes every brace it opens. -/
theorem finalDepth_of_splitBody {depth : Nat} {ts body after : List Token}
    (h : splitBody depth ts = some (body, after)) (k : Nat) : finalDepth (depth + k) body = k := by
  induction ts generalizing depth body with
  | nil => simp [splitBody] at h
  | cons t rest ih =>
    obtain ⟨rfl, rfl, -⟩ | ⟨d, b, rfl, hb, hd⟩ := splitBody_cons_cases h
    · simp [finalDepth]
    · simpa [finalDepth, hd] using ih hb

/-- One level deeper a body weighs `maxCopies + 1` times as much. -/
theorem weight_succ_of_splitBody {depth : Nat} {ts body after : List Token}
    (h : splitBody depth ts = some (body, after)) (k : Nat) :
    weight (depth + k + 1) body = (maxCopies + 1) * weight (depth + k) body := by
  induction ts generalizing depth body with
  | nil => simp [splitBody] at h
  | cons t rest ih =>
    obtain ⟨rfl, rfl, -⟩ | ⟨d, b, rfl, hb, hd⟩ := splitBody_cons_cases h
    · simp [weight]
    · have hd' : depthAfter t.kind (depth + k + 1) = d + k + 1 := by
        simpa [Nat.add_assoc] using hd (k + 1)
      rw [weight, weight, hd, hd', ih hb, tokenWeight, Nat.mul_add]

/-- Replacing the loop variable moves no brace. -/
theorem depthAfter_substitute (counter : String) (value : Int64) (t : Token) :
    depthAfter (Loop.substitute counter value t).kind = depthAfter t.kind := by
  unfold Loop.substitute
  split
  · rename_i h
    rw [h.1]
    rfl
  · rfl

theorem weight_substitute (counter : String) (value : Int64) (ts : List Token) (d : Nat) :
    weight d (ts.map (Loop.substitute counter value)) = weight d ts := by
  induction ts generalizing d with
  | nil => rfl
  | cons t rest ih => simp only [List.map_cons, weight, depthAfter_substitute, ih]

theorem finalDepth_substitute (counter : String) (value : Int64) (ts : List Token) (d : Nat) :
    finalDepth d (ts.map (Loop.substitute counter value)) = finalDepth d ts := by
  simp only [finalDepth, List.foldl_map, depthAfter_substitute]

/-- The copies of a balanced body weigh as much as the body, times their number. -/
theorem weight_unroll (l : Loop) (h : finalDepth 0 l.body = 0) :
    weight 0 l.unroll = l.copies * weight 0 l.body := by
  have copied (vs : List Int64) :
      weight 0 (vs.flatMap fun value => l.body.map (Loop.substitute l.counter value))
        = vs.length * weight 0 l.body := by
    induction vs with
    | nil => simp [weight]
    | cons v vs ih =>
      rw [List.flatMap_cons, weight_append, finalDepth_substitute, h, weight_substitute, ih,
        List.length_cons, Nat.succ_mul, Nat.add_comm]
  simpa [Loop.unroll, Loop.values] using copied l.values

theorem eq_cons_of_expectToken {keyword t : Token} {kind : Token.Kind} {what : String}
    {ts rest : List Token} (h : expectToken keyword kind what ts = .ok (t, rest)) :
    t :: rest = ts ∧ t.kind = kind := by
  cases ts with
  | nil => simp [expectToken] at h
  | cons u us =>
    simp only [expectToken] at h
    split at h
    · obtain ⟨rfl, rfl⟩ := Prod.mk.inj (Except.ok.inj h)
      exact ⟨rfl, ‹_›⟩
    · simp at h

theorem splitSign_suffix (ts : List Token) : (splitSign ts).2 <:+ ts := by
  unfold splitSign
  split
  · split
    · exact List.suffix_cons _ _
    · exact List.suffix_refl _
  · exact List.suffix_refl _

theorem suffix_of_readBound {keyword : Token} {ts rest : List Token} {value : Int64}
    (h : readBound keyword ts = .ok (value, rest)) : rest <:+ ts := by
  unfold readBound at h
  obtain ⟨⟨t, after⟩, ht, hvalue⟩ := bind_eq_ok.1 h
  have hafter : after <:+ ts :=
    ((eq_cons_of_expectToken ht).1 ▸ List.suffix_cons t after).trans (splitSign_suffix ts)
  dsimp only at hvalue
  split at hvalue
  · obtain ⟨-, rfl⟩ := Prod.mk.inj (Except.ok.inj hvalue)
    exact hafter
  · simp at hvalue

/-- A loop's body and the tokens after it come from a split behind an opening brace. -/
theorem exists_split_of_readLoop {keyword : Token} {ts : List Token} {l : Loop}
    (h : readLoop keyword ts = .ok l) :
    ∃ brace inner, brace.kind = .lbrace ∧ (brace :: inner) <:+ ts ∧
      splitBody 0 inner = some (l.body, l.after) := by
  unfold readLoop at h
  obtain ⟨⟨counter, ts₁⟩, h₁, h⟩ := bind_eq_ok.1 h
  obtain ⟨⟨_, ts₂⟩, h₂, h⟩ := bind_eq_ok.1 h
  obtain ⟨⟨first, ts₃⟩, h₃, h⟩ := bind_eq_ok.1 h
  obtain ⟨⟨_, ts₄⟩, h₄, h⟩ := bind_eq_ok.1 h
  obtain ⟨⟨last, ts₅⟩, h₅, h⟩ := bind_eq_ok.1 h
  obtain ⟨⟨brace, inner⟩, h₆, h⟩ := bind_eq_ok.1 h
  obtain ⟨hbrace, hkind⟩ := eq_cons_of_expectToken h₆
  refine ⟨brace, inner, hkind, ?_, ?_⟩
  · have s₁ : ts₁ <:+ ts := (eq_cons_of_expectToken h₁).1 ▸ List.suffix_cons _ _
    have s₂ : ts₂ <:+ ts₁ := (eq_cons_of_expectToken h₂).1 ▸ List.suffix_cons _ _
    have s₄ : ts₄ <:+ ts₃ := (eq_cons_of_expectToken h₄).1 ▸ List.suffix_cons _ _
    rw [hbrace]
    exact ((((suffix_of_readBound h₅).trans s₄).trans (suffix_of_readBound h₃)).trans s₂).trans s₁
  · dsimp only at h
    split at h
    · rename_i body after hsplit
      obtain rfl := Except.ok.inj h
      exact hsplit
    · simp at h

/-- **Unrolling lowers the weight**: the copies of a loop and the tokens after it both weigh less
than the loop with all that follows. -/
theorem weight_lt_of_unrollLoop {keyword : Token} {ts copies after : List Token}
    (h : unrollLoop keyword ts = .ok (copies, after)) :
    weight 0 copies < weight 0 (keyword :: ts) ∧ weight 0 after < weight 0 (keyword :: ts) := by
  unfold unrollLoop at h
  obtain ⟨l, hl, h⟩ := bind_eq_ok.1 h
  split at h
  · simp at h
  rename_i hcount
  obtain ⟨rfl, rfl⟩ := Prod.mk.inj (Except.ok.inj h)
  obtain ⟨brace, inner, hkind, hsuffix, hsplit⟩ := exists_split_of_readLoop hl
  have hlist := Nat.lt_of_le_of_lt (weight_le_of_suffix hsuffix) (weight_lt_cons keyword ts)
  have hbrace : weight 0 (brace :: inner) = 1 + weight 1 inner := by
    simp [weight, tokenWeight, depthAfter, hkind]
  obtain ⟨close, hinner⟩ := eq_append_of_splitBody hsplit
  refine ⟨?_, ?_⟩
  · have hbody : weight 1 l.body = (maxCopies + 1) * weight 0 l.body :=
      weight_succ_of_splitBody hsplit 0
    have hle : weight 1 l.body ≤ weight 1 inner := hinner ▸ weight_le_append 1 _ _
    have hcopies : l.copies * weight 0 l.body ≤ (maxCopies + 1) * weight 0 l.body :=
      Nat.mul_le_mul_right _ (by omega)
    rw [weight_unroll l (finalDepth_of_splitBody hsplit 0)]
    omega
  · have hafter : l.after <:+ inner := hinner ▸ (List.suffix_cons close _).trans
      (List.suffix_append _ _)
    have hle := weight_le_of_suffix hafter
    have hmono := weight_mono inner (Nat.zero_le 1)
    omega

end ImpMachine.Expansion
