import Mathlib.Data.List.Forall2
import ImpMachine.Linear.Reader
import ImpMachine.Proofs.Coverage
import ImpMachine.Proofs.ExpressionParsing
import ImpMachine.Proofs.Scanning

/-!
# The text of an operand reads back

Listings write compound operands in parentheses, so their text is a phrase of the grammar that
needs no precedence. A negative word is written with a minus sign and reads back as the negation of
its magnitude, which folds to the word again; only the smallest word has no magnitude. A text is
written with escapes, and most of them are those of the language. So reading gives the folded
operand (`readOperand_render`), if all its leaves are legible.
-/

namespace ImpMachine

open List

variable {cs lhs rhs symbol body text : List Char} {op : Operand} {c : Char} {kind : Token.Kind}
variable {callee : String} {α : Type} {n : Int64} {e : Expr}

/-! ## Trimming -/

namespace Text

/-- A text with no blank at either end. -/
def Solid (cs : List Char) : Prop :=
  (∃ c, cs.head? = some c ∧ isBlank c = false) ∧ ∃ c, cs.getLast? = some c ∧ isBlank c = false

theorem Solid.ne_nil (h : Solid cs) : cs ≠ [] := by
  rintro rfl
  obtain ⟨⟨c, hc, -⟩, -⟩ := h
  cases hc

/-- A text with no blank at all. -/
def Dense (cs : List Char) : Prop :=
  cs ≠ [] ∧ ∀ c ∈ cs, isBlank c = false

instance (cs : List Char) : Decidable (Dense cs) :=
  decidable_of_iff (cs ≠ [] ∧ cs.all (!isBlank ·) = true)
    (and_congr_right' (by simp [all_eq_true]))

/-- A text without blanks neither begins nor ends in one. -/
theorem Dense.solid (h : Dense cs) : Solid cs := by
  obtain ⟨hne, hall⟩ := h
  obtain ⟨c, rest, rfl⟩ := exists_cons_of_ne_nil hne
  exact ⟨⟨c, rfl, hall c (.head _)⟩, _, List.getLast?_eq_some_getLast hne,
    hall _ (getLast_mem hne)⟩

theorem Dense.newline_notMem (h : Dense cs) : '\n' ∉ cs :=
  fun hmem => absurd (h.2 '\n' hmem) (by decide)

theorem Solid.append {front back : List Char} (hfront : Solid front) (middle : List Char)
    (hback : Solid back) : Solid (front ++ (middle ++ back)) := by
  obtain ⟨⟨c, hc, hblank⟩, -⟩ := hfront
  obtain ⟨-, d, hd, hblank'⟩ := hback
  refine ⟨⟨c, ?_, hblank⟩, d, ?_, hblank'⟩
  · rw [List.head?_append, hc]
    rfl
  · rw [List.getLast?_append, List.getLast?_append, hd]
    rfl

theorem trimLeft_eq_self (h : cs.head? = some c) (hc : isBlank c = false) : trimLeft cs = cs := by
  obtain ⟨rest, rfl⟩ := List.head?_eq_some_iff.1 h
  simp [trimLeft, hc]

/-- A text without blanks at its ends is trimmed already. -/
theorem Solid.trim_eq_self (h : Solid cs) : trim cs = cs := by
  obtain ⟨⟨c, hc, hblank⟩, d, hd, hblank'⟩ := h
  have hright : trimRight cs = cs := by
    unfold trimRight
    rw [← List.head?_reverse] at hd
    have hreverse := trimLeft_eq_self hd hblank'
    unfold trimLeft at hreverse
    rw [hreverse, reverse_reverse]
  rw [trim, trimLeft_eq_self hc hblank, hright]

theorem trimLeft_blank_cons (cs : List Char) (h : isBlank c = true) :
    trimLeft (c :: cs) = trimLeft cs := by
  simp [trimLeft, h]

theorem trim_blank_cons (cs : List Char) (h : isBlank c = true) : trim (c :: cs) = trim cs := by
  rw [trim, trim, trimLeft_blank_cons cs h]

/-! ## Escapes -/

/-- A character whose plain form stands for it in a string: a tab, a line break, or printable ASCII
but the apostrophe. -/
def IsKept (c : Char) : Prop :=
  c ∈ ['\t', '\r', '\n'] ∨ (0x20 ≤ c.toNat ∧ c.toNat < 0x7F) ∧ c ≠ '\''

instance (c : Char) : Decidable (IsKept c) :=
  inferInstanceAs (Decidable (_ ∨ _))

/-- A kept character stands for itself between quotes. -/
theorem IsKept.contents (h : IsKept c) (hbody : Lexer.Contents '"' body text) :
    Lexer.Contents '"' (plainEscape c ++ body) (c :: text) := by
  unfold plainEscape
  split
  · exact .escaped .tab hbody
  · exact .escaped .carriageReturn hbody
  · exact .escaped .lineFeed hbody
  · exact absurd h (by decide)
  · exact .escaped .quote hbody
  · exact .escaped .backslash hbody
  · rename_i htab hreturn hline hapostrophe hquote hslash
    have hrange : 0x20 ≤ c.toNat ∧ c.toNat < 0x7F := by
      rcases h with h | h
      · simp only [mem_cons, not_mem_nil, or_false] at h
        exact absurd h (not_or.2 ⟨htab, not_or.2 ⟨hreturn, hline⟩⟩)
      · exact h.1
    rw [if_pos (by simpa using hrange)]
    exact .plain hquote hslash hline hbody

/-- The plain form of a text stands for the text. -/
theorem contents_plain (h : ∀ c ∈ cs, IsKept c) :
    Lexer.Contents '"' (cs.flatMap plainEscape) cs := by
  induction cs with
  | nil => exact .nil
  | cons c cs ih =>
    obtain ⟨hc, hcs⟩ := forall_mem_cons.1 h
    exact hc.contents (ih hcs)

/-- What stands for a string is on one line. -/
theorem newline_notMem_of_contents (h : Lexer.Contents '"' body text) : '\n' ∉ body := by
  induction h with
  | nil => exact not_mem_nil
  | plain _ _ hline _ ih => exact not_mem_cons_of_ne_of_not_mem (Ne.symm hline) ih
  | escaped hescape _ ih =>
    refine not_mem_cons_of_ne_of_not_mem (by decide)
      (not_mem_cons_of_ne_of_not_mem ?_ ih)
    cases hescape <;> decide

end Text

namespace Operand

/-! ## The expression that the text spells -/

/-- The expression that a word's text spells. -/
def spelledWord (n : Int64) : Expr :=
  if 0 ≤ n.toInt then .literal (.integer n) else .unary .neg (.literal (.integer (-n)))

mutual

/-- The expression that an operand's text spells. -/
def spelled : Operand → Expr
  | .number (.int n) => spelledWord n
  | .number (.float x) => .literal (.float x)
  | .text s => .literal (.string s)
  | .var name => .var name
  | .binary op lhs rhs => .binary op lhs.spelled rhs.spelled
  | .unary op operand => .unary op operand.spelled
  | .logical op lhs rhs => .logical op lhs.spelled rhs.spelled
  | .call callee args => .call callee (spelledAll args)

/-- The expressions that the texts of several operands spell. -/
def spelledAll : List Operand → List Expr
  | [] => []
  | a :: rest => a.spelled :: spelledAll rest

end

theorem flatten_spelledWord (n : Int64) : Linear.flatten (spelledWord n) = ([], .int n) := by
  unfold spelledWord
  split
  · simp [Linear.flatten, Linear.ofLiteral]
  · simp [Linear.flatten, Linear.ofLiteral, int, mkUnary, Number.negate]

theorem flatten_spelled (op : Operand) : Linear.flatten op.spelled = ([], op.fold) := by
  induction op with
  | number n =>
    cases n with
    | int n => exact flatten_spelledWord n
    | float x => simp [spelled, Linear.flatten, Linear.ofLiteral, fold]
  | text | var => simp [spelled, Linear.flatten, Linear.ofLiteral, fold]
  | binary _ _ _ ihlhs ihrhs | logical _ _ _ ihlhs ihrhs =>
    simp [spelled, Linear.flatten, fold, ihlhs, ihrhs]
  | unary _ _ ih => simp [spelled, Linear.flatten, fold, ih]
  | call callee args ih =>
    have hargs : Linear.flattenAll (spelledAll args) = ([], foldAll args) := by
      induction args with
      | nil => rfl
      | cons a rest ihrest =>
        obtain ⟨ha, hrest⟩ := forall_mem_cons.1 ih
        simp [spelledAll, Linear.flattenAll, foldAll, ha, ihrest hrest]
    simp [spelled, Linear.flatten, fold, hargs]

theorem hasAssignment_spelled (op : Operand) : Linear.hasAssignment op.spelled = false := by
  induction op with
  | number n =>
    cases n with
    | int n =>
      unfold spelled spelledWord
      split <;> simp [Linear.hasAssignment]
    | float x => simp [spelled, Linear.hasAssignment]
  | text | var => simp [spelled, Linear.hasAssignment]
  | binary _ _ _ ihlhs ihrhs | logical _ _ _ ihlhs ihrhs =>
    simp [spelled, Linear.hasAssignment, ihlhs, ihrhs]
  | unary _ _ ih => simp [spelled, Linear.hasAssignment, ih]
  | call callee args ih =>
    have hargs : Linear.anyAssignment (spelledAll args) = false := by
      induction args with
      | nil => rfl
      | cons a rest ihrest =>
        obtain ⟨ha, hrest⟩ := forall_mem_cons.1 ih
        simp [spelledAll, Linear.anyAssignment, ha, ihrest hrest]
    simp [spelled, Linear.hasAssignment, hargs]

/-! ## Operands whose text is a phrase -/

mutual

/-- The variables and constants at the leaves, from left to right. -/
def leaves : Operand → List Operand
  | .number n => [.number n]
  | .text s => [.text s]
  | .var name => [.var name]
  | .binary _ lhs rhs | .logical _ lhs rhs => lhs.leaves ++ rhs.leaves
  | .unary _ operand => operand.leaves
  | .call _ args => leavesAll args

/-- The leaves of several operands. -/
def leavesAll : List Operand → List Operand
  | [] => []
  | a :: rest => a.leaves ++ leavesAll rest

end

/-- A variable or a word. -/
def IsWordOrVar : Operand → Prop
  | .number (.int _) | .var _ => True
  | _ => False

/-- Every name is an identifier, and every leaf a variable or a word other than the smallest. -/
structure Readable (op : Operand) : Prop where
  names : ∀ name ∈ op.reads ++ op.calls, Lexer.IsIdentifier name
  leaves : ∀ leaf ∈ op.leaves, leaf.IsWordOrVar
  lowest : .int Int64.minValue ∉ op.leaves

/-- A leaf that is read back wherever it stands. -/
def IsLegible : Operand → Prop
  | .number (.int n) => n ≠ Int64.minValue
  | .text s => ∀ c ∈ s.toList, Text.IsKept c
  | .var _ => True
  | _ => False

/-- A leaf other than a double. -/
def IsExact : Operand → Prop
  | .number (.float _) => False
  | _ => True

theorem IsLegible.isExact (h : op.IsLegible) : op.IsExact := by
  unfold IsExact
  split
  · exact h
  · trivial

/-- Every name is an identifier, and every leaf is of the given sort. -/
structure BuiltFrom (sort : Operand → Prop) (op : Operand) : Prop where
  names : ∀ name ∈ op.reads ++ op.calls, Lexer.IsIdentifier name
  leaves : ∀ leaf ∈ op.leaves, sort leaf

/-- What can be read back is built from legible leaves. -/
theorem Readable.builtFrom (h : op.Readable) : op.BuiltFrom IsLegible := by
  refine ⟨h.names, fun leaf hleaf => ?_⟩
  have hsort := h.leaves leaf hleaf
  unfold IsWordOrVar at hsort
  split at hsort
  · rintro rfl
    exact h.lowest hleaf
  · trivial
  · exact hsort.elim

theorem leavesAll_eq_flatMap (args : List Operand) : leavesAll args = args.flatMap leaves := by
  induction args with
  | nil => rfl
  | cons a args ih => rw [leavesAll, ih, flatMap_cons]

section BuiltFrom

variable {sort : Operand → Prop}

theorem BuiltFrom.imp {sort' : Operand → Prop} (h : op.BuiltFrom sort)
    (himp : ∀ leaf, sort leaf → sort' leaf) : op.BuiltFrom sort' :=
  ⟨h.names, fun leaf hleaf => himp leaf (h.leaves leaf hleaf)⟩

/-- What an operand consists of is built like it. -/
theorem BuiltFrom.of_subset {part : Operand} (h : op.BuiltFrom sort)
    (hnames : part.reads ++ part.calls ⊆ op.reads ++ op.calls) (hleaves : part.leaves ⊆ op.leaves) :
    part.BuiltFrom sort :=
  ⟨fun name hname => h.names name (hnames hname), fun leaf hleaf => h.leaves leaf (hleaves hleaf)⟩

/-- Both sides are built from the leaves of the whole. -/
theorem BuiltFrom.sides {lhs rhs : Operand} (h : op.BuiltFrom sort)
    (hreads : op.reads = lhs.reads ++ rhs.reads) (hcalls : op.calls = lhs.calls ++ rhs.calls)
    (hleaves : op.leaves = lhs.leaves ++ rhs.leaves) : lhs.BuiltFrom sort ∧ rhs.BuiltFrom sort := by
  constructor <;> refine h.of_subset (fun name hname => ?_) (fun leaf hleaf => ?_)
  · rw [hreads, hcalls]
    grind
  · rw [hleaves]
    exact mem_append_left _ hleaf
  · rw [hreads, hcalls]
    grind
  · rw [hleaves]
    exact mem_append_right _ hleaf

theorem BuiltFrom.unary {op : UnaryOp} {operand : Operand}
    (h : (Operand.unary op operand).BuiltFrom sort) : operand.BuiltFrom sort :=
  h.of_subset (fun _ => id) fun _ => id

/-- A call is built like its arguments, with its callee. -/
theorem builtFrom_call_iff {args : List Operand} :
    (call callee args).BuiltFrom sort ↔
      Lexer.IsIdentifier callee ∧ ∀ a ∈ args, a.BuiltFrom sort := by
  have hreads : (call callee args).reads = args.flatMap reads := readsAll_eq_flatMap args
  have hcalls : (call callee args).calls = callee :: args.flatMap calls :=
    congrArg (callee :: ·) (callsAll_eq_flatMap args)
  have hleaves : (call callee args).leaves = args.flatMap leaves := leavesAll_eq_flatMap args
  constructor
  · intro h
    refine ⟨h.names callee (by simp [hcalls]), fun a ha => h.of_subset ?_ ?_⟩
    · rw [hreads, hcalls]
      grind
    · rw [hleaves]
      exact fun leaf hleaf => mem_flatMap.2 ⟨a, ha, hleaf⟩
  · rintro ⟨hcallee, hargs⟩
    constructor
    · rw [hreads, hcalls]
      intro name hname
      rcases mem_append.1 hname with hname | hname
      · obtain ⟨a, ha, hname⟩ := mem_flatMap.1 hname
        exact (hargs a ha).names name (mem_append_left _ hname)
      · rcases mem_cons.1 hname with rfl | hname
        · exact hcallee
        · obtain ⟨a, ha, hname⟩ := mem_flatMap.1 hname
          exact (hargs a ha).names name (mem_append_right _ hname)
    · rw [hleaves]
      intro leaf hleaf
      obtain ⟨a, ha, hleaf⟩ := mem_flatMap.1 hleaf
      exact (hargs a ha).leaves leaf hleaf

end BuiltFrom

end Operand

/-! ## Phrases -/

namespace Grammar

open Lexer

/-- Wherever it stands in a text whose reading ends in such a way, it is cut into tokens of this
sort. -/
def CutsInto (ending : Option SourceError → Prop) (cs : List Char) (sort : List Token → Prop) :
    Prop :=
  ∀ p rest, Apart rest → ending (lexFrom p (cs ++ rest)).2 →
    ∃ tokens p', Cuts p (cs ++ rest) tokens p' rest ∧ sort tokens

/-- Wherever it stands, the text is cut into a phrase with this tree. -/
def Spells (cs : List Char) (e : Expr) : Prop :=
  ∀ p rest, Apart rest →
    ∃ tokens p', Cuts p (cs ++ rest) tokens p' rest ∧ Derives .prefixed tokens e

/-- A sign of one or two characters. -/
def IsSign (kind : Token.Kind) (symbol : List Char) : Prop :=
  (∃ c, symbol = [c] ∧ singleKind? c = some kind) ∨
    ∃ c d, symbol = [c, d] ∧ pairKind? c d = some kind

theorem IsSign.cuts (h : IsSign kind symbol) (p : Position) (rest : List Char) :
    ∃ t p', Cuts p (symbol ++ ' ' :: rest) [t] p' rest ∧ t.kind = kind := by
  have hblank : Text.isBlank ' ' = true := by decide
  have hsign : Lexeme kind symbol symbol := by
    rcases h with ⟨c, rfl, hc⟩ | ⟨c, d, rfl, hcd⟩
    · exact .single hc
    · exact .pair hcd
  obtain ⟨t, p₁, hcuts, hkind, -⟩ := hsign.cuts (setOff_cons rest hblank) p
  obtain ⟨p₂, hskip⟩ := cuts_blank p₁ rest hblank
  exact ⟨t, p₂, hcuts.trans hskip, hkind⟩

/-! ### Cutting compound texts -/

section CutsInto

variable {ending : Option SourceError → Prop} {P Q : List Token → Prop}

theorem CutsInto.imp (h : CutsInto ending cs P)
    (himp : ∀ tokens, P tokens → Q tokens) : CutsInto ending cs Q := by
  intro p rest hrest hending
  obtain ⟨tokens, p', hcuts, htokens⟩ := h p rest hrest hending
  exact ⟨tokens, p', hcuts, himp tokens htokens⟩

/-- Two texts and a sign between them, in parentheses. -/
theorem CutsInto.connect (hl : CutsInto ending lhs P) (hr : CutsInto ending rhs Q)
    (hsign : IsSign kind symbol) :
    CutsInto ending ('(' :: (lhs ++ ' ' :: (symbol ++ ' ' :: (rhs ++ [')'])))) fun tokens =>
      ∃ (t sign u : Token) (left right : List Token),
        tokens = t :: ((left ++ sign :: right) ++ [u]) ∧ t.kind = .lparen ∧ P left ∧
          sign.kind = kind ∧ Q right ∧ u.kind = .rparen := by
  intro p rest hrest hending
  obtain ⟨t, p₁, hopen, ht⟩ := cuts_delimiter p
    (lhs ++ ' ' :: (symbol ++ ' ' :: (rhs ++ ')' :: rest))) (show '(' ∈ _ by decide) rfl
  simp only [cons_append, append_assoc, nil_append] at hending
  rw [hopen.error_eq] at hending
  obtain ⟨left, p₂, hleft, hp⟩ := hl p₁ (' ' :: (symbol ++ ' ' :: (rhs ++ ')' :: rest)))
    (apart_cons _ (by decide)) hending
  obtain ⟨p₃, hblank⟩ := cuts_blank p₂ (symbol ++ ' ' :: (rhs ++ ')' :: rest))
    (show Text.isBlank ' ' = true by decide)
  obtain ⟨sign, p₄, hcut, hkind⟩ := hsign.cuts p₃ (rhs ++ ')' :: rest)
  rw [hleft.error_eq, hblank.error_eq, hcut.error_eq] at hending
  obtain ⟨right, p₅, hright, hq⟩ := hr p₄ (')' :: rest) (apart_cons _ (by decide)) hending
  obtain ⟨u, p₆, hclose, hu⟩ := cuts_delimiter p₅ rest (show ')' ∈ _ by decide) rfl
  refine ⟨_, p₆, ?_, t, sign, u, left, right, rfl, ht, hp, hkind, hq, hu⟩
  simpa using hopen.trans (hleft.trans (hblank.trans (hcut.trans (hright.trans hclose))))

/-- A sign and a text, in parentheses. -/
theorem CutsInto.apply {operand : List Char} (h : CutsInto ending operand P)
    (hsign : IsSign kind symbol) :
    CutsInto ending ('(' :: (symbol ++ ' ' :: (operand ++ [')']))) fun tokens =>
      ∃ (t sign u : Token) (inner : List Token),
        tokens = t :: ((sign :: inner) ++ [u]) ∧ t.kind = .lparen ∧ sign.kind = kind ∧
          P inner ∧ u.kind = .rparen := by
  intro p rest hrest hending
  obtain ⟨t, p₁, hopen, ht⟩ := cuts_delimiter p (symbol ++ ' ' :: (operand ++ ')' :: rest))
    (show '(' ∈ _ by decide) rfl
  obtain ⟨sign, p₂, hcut, hkind⟩ := hsign.cuts p₁ (operand ++ ')' :: rest)
  simp only [cons_append, append_assoc, nil_append] at hending
  rw [hopen.error_eq, hcut.error_eq] at hending
  obtain ⟨inner, p₃, hinner, hp⟩ := h p₂ (')' :: rest) (apart_cons _ (by decide)) hending
  obtain ⟨u, p₄, hclose, hu⟩ := cuts_delimiter p₃ rest (show ')' ∈ _ by decide) rfl
  refine ⟨_, p₄, ?_, t, sign, u, inner, rfl, ht, hkind, hp, hu⟩
  simpa using hopen.trans (hcut.trans (hinner.trans hclose))

/-- Arguments with commas between them, before a closing parenthesis. -/
theorem cuts_arguments {text : α → List Char} {sort : α → List Token → Prop} {args : List α}
    (h : ∀ a ∈ args, CutsInto ending (text a) (sort a)) (p : Position) (rest : List Char)
    (hending : ending (lexFrom p ([',', ' '].intercalate (args.map text) ++ ')' :: rest)).2) :
    ∃ (phrases : List (List Token)) (tokens : List Token) (p' : Position),
      Cuts p ([',', ' '].intercalate (args.map text) ++ ')' :: rest) tokens p' (')' :: rest) ∧
        Separated phrases tokens ∧ List.Forall₂ sort args phrases := by
  induction args generalizing p with
  | nil => exact ⟨[], [], p, rfl, .nil, .nil⟩
  | cons a args ih =>
    obtain ⟨ha, hargs⟩ := forall_mem_cons.1 h
    cases args with
    | nil =>
      rw [map_singleton, intercalate_singleton] at hending ⊢
      obtain ⟨tokens, p', hcuts, hsort⟩ := ha p (')' :: rest) (apart_cons _ (by decide)) hending
      exact ⟨[tokens], tokens, p', hcuts, .single, .cons hsort .nil⟩
    | cons b args =>
      -- the comma keeps the first text apart from the others, and the blank behind it is skipped
      have hsplit : [',', ' '].intercalate ((a :: b :: args).map text) ++ ')' :: rest =
          text a ++ ',' :: ' ' ::
            ([',', ' '].intercalate ((b :: args).map text) ++ ')' :: rest) := by
        simp
      rw [hsplit] at hending ⊢
      generalize hlater : [',', ' '].intercalate ((b :: args).map text) ++ ')' :: rest = later
        at hending ih ⊢
      obtain ⟨tokens, p₁, hcuts, hsort⟩ := ha p (',' :: ' ' :: later) (apart_cons _ (by decide))
        hending
      obtain ⟨comma, p₂, hcomma, hkind⟩ := cuts_delimiter p₁ (' ' :: later)
        (show ',' ∈ _ by decide) rfl
      obtain ⟨p₃, hblank⟩ := cuts_blank p₂ later (show Text.isBlank ' ' = true by decide)
      rw [hcuts.error_eq, hcomma.error_eq, hblank.error_eq] at hending
      obtain ⟨phrases, others, p₄, hothers, hseparated, hsorts⟩ := ih hargs p₃ hending
      refine ⟨tokens :: phrases, tokens ++ comma :: others, p₄, ?_, ?_, .cons hsort hsorts⟩
      · simpa using hcuts.trans (hcomma.trans (hblank.trans hothers))
      · cases hsorts with
        | cons => exact .cons hkind hseparated

/-- A name with arguments. -/
theorem cutsInto_call {text : α → List Char} {sort : α → List Token → Prop} {args : List α}
    (hcallee : IsIdentifier callee) (h : ∀ a ∈ args, CutsInto ending (text a) (sort a)) :
    CutsInto ending (callee.toList ++ '(' :: ([',', ' '].intercalate (args.map text) ++ [')']))
      fun tokens =>
        ∃ (name t u : Token) (phrases : List (List Token)) (inner : List Token),
          tokens = name :: t :: (inner ++ [u]) ∧ name.kind = .ident ∧ name.text = callee ∧
            t.kind = .lparen ∧ Separated phrases inner ∧ List.Forall₂ sort args phrases ∧
            u.kind = .rparen := by
  intro p rest hrest hending
  generalize hcs : [',', ' '].intercalate (args.map text) = cs at hending ⊢
  obtain ⟨name, p₁, hname, hkind, htext⟩ := cuts_word p hcallee.1
    (apart_cons (cs ++ ')' :: rest) (show '(' ∈ _ by decide))
  rw [String.ofList_toList] at hkind htext
  rw [hcallee.2] at hkind
  obtain ⟨t, p₂, hopen, ht⟩ := cuts_delimiter p₁ (cs ++ ')' :: rest) (show '(' ∈ _ by decide) rfl
  simp only [cons_append, append_assoc, nil_append] at hending
  rw [hname.error_eq, hopen.error_eq, ← hcs] at hending
  obtain ⟨phrases, inner, p₃, hcuts, hseparated, hsorts⟩ := cuts_arguments h p₂ rest hending
  rw [hcs] at hcuts
  obtain ⟨u, p₄, hclose, hu⟩ := cuts_delimiter p₃ rest (show ')' ∈ _ by decide) rfl
  refine ⟨_, p₄, ?_, name, t, u, phrases, inner, rfl, hkind, htext, ht, hseparated, hsorts, hu⟩
  simpa using hname.trans (hopen.trans (hcuts.trans hclose))

end CutsInto

/-! ### Their trees -/

/-- A spelled leaf is cut into the tokens of its phrase. -/
theorem Spells.cutsInto (h : Spells cs e) (ending : Option SourceError → Prop) :
    CutsInto ending cs (Derives .prefixed · e) :=
  fun p rest hrest _ => h p rest hrest

theorem CutsInto.spells {sort : List Token → Prop} (h : CutsInto (fun _ => True) cs sort)
    (htree : ∀ tokens, sort tokens → Derives .prefixed tokens e) : Spells cs e :=
  fun p rest hrest => h.imp htree p rest hrest trivial

theorem spells_var {name : String} (h : IsIdentifier name) : Spells name.toList (.var name) := by
  intro p rest hrest
  obtain ⟨t, p', hcuts, hkind, htext⟩ := cuts_word p h.1 hrest
  rw [String.ofList_toList] at hkind htext
  rw [h.2] at hkind
  refine ⟨[t], p', hcuts, .tighter rfl ?_⟩
  rw [← htext]
  exact .var hkind

theorem spells_text {s : String} (h : ∀ c ∈ s.toList, Text.IsKept c) :
    Spells (Operand.text s).render.toList (.literal (.string s)) := by
  intro p rest hrest
  obtain ⟨t, p', hcuts, hkind, htext⟩ := cuts_string p rest (Text.contents_plain h)
  rw [String.ofList_toList] at htext
  refine ⟨[t], p', by simpa [Operand.render, Text.plain] using hcuts, .tighter rfl ?_⟩
  rw [← htext]
  exact .literal (.string hkind)

/-- The digits of a word that is not negative. -/
theorem cuts_magnitude (p : Position) {rest : List Char} (hsign : 0 ≤ n.toInt)
    (hrest : Apart rest) :
    ∃ t p', Cuts p (Nat.toDigits 10 n.toInt.toNat ++ rest) [t] p' rest ∧
      Derives .prefixed [t] (.literal (.integer n)) := by
  obtain ⟨t, p', hcuts, hkind, htext⟩ := cuts_numeral p (Decimal.isNumeral_toDigits _) hrest
  have hdenotes := Decimal.denotes_wordText n
  rw [Decimal.toList_wordText, if_pos hsign] at hdenotes
  refine ⟨t, p', hcuts, .tighter rfl (.literal (.integer hkind ?_))⟩
  rwa [htext, String.toList_ofList]

/-- The text of a word spells it. -/
theorem spells_word (h : n ≠ Int64.minValue) :
    Spells (Decimal.wordText n).toList (Operand.spelledWord n) := by
  intro p rest hrest
  rw [Decimal.toList_wordText, Operand.spelledWord]
  split
  · rename_i hsign
    obtain ⟨t, p', hcuts, hderives⟩ := cuts_magnitude p hsign hrest
    exact ⟨[t], p', hcuts, hderives⟩
  · rename_i hsign
    -- the magnitude is a word of its own, since this is not the smallest word
    have hneg := Decimal.toInt_neg_of_ne h
    have hdigits := Decimal.isNumeral_toDigits (-n).toInt.toNat
    obtain ⟨t, p₁, hminus, hkind⟩ := cuts_minus p rest hdigits
    obtain ⟨u, p₂, hcuts, hderives⟩ := cuts_magnitude p₁ (n := -n) (by omega) hrest
    rw [← hneg]
    refine ⟨[t, u], p₂, hminus.trans hcuts, .operator ?_ hderives⟩
    rw [hkind]
    exact .minus

/-- Two phrases and a sign between them, in parentheses. -/
theorem Spells.connect {a b : Expr} {level next : Level} {tree : Expr → Expr → Expr}
    (hl : Spells lhs a) (hr : Spells rhs b) (hsign : IsSign kind symbol)
    (hjoins : Joins level kind tree) (hlevel : level.tighter? = some next) :
    Spells ('(' :: (lhs ++ ' ' :: (symbol ++ ' ' :: (rhs ++ [')'])))) (tree a b) := by
  -- both sides are phrases of the tightest level that an operator joins
  have hrank : level.rank ≤ Level.prefixed.rank ∧ next.rank ≤ Level.prefixed.rank := by
    cases hjoins <;> cases hlevel <;> decide
  refine ((hl.cutsInto _).connect (hr.cutsInto _) hsign).spells ?_
  rintro tokens ⟨t, sign, u, left, right, rfl, ht, hleft, hkind, hright, hu⟩
  have hphrase : Derives level (left ++ sign :: right) (tree a b) :=
    .join (hkind ▸ hjoins) hlevel (hleft.loosen hrank.1) (hright.loosen hrank.2)
  exact .tighter rfl (.group ht (hphrase.loosen (Nat.zero_le _)) hu)

/-- A sign and a phrase, in parentheses. -/
theorem Spells.apply {operand : List Char} {op : UnaryOp} (h : Spells operand e)
    (hsign : IsSign kind symbol) (hop : Prefixes kind op) :
    Spells ('(' :: (symbol ++ ' ' :: (operand ++ [')']))) (.unary op e) := by
  refine ((h.cutsInto _).apply hsign).spells ?_
  rintro tokens ⟨t, sign, u, inner, rfl, ht, hkind, hinner, hu⟩
  have hphrase : Derives .prefixed (sign :: inner) (.unary op e) :=
    .operator (hkind ▸ hop) hinner
  exact .tighter rfl (.group ht (hphrase.loosen (Nat.zero_le _)) hu)

/-- A name with phrases as its arguments. -/
theorem spells_call {text : α → List Char} {tree : α → Expr} {args : List α}
    (hcallee : IsIdentifier callee) (h : ∀ a ∈ args, Spells (text a) (tree a)) :
    Spells (callee.toList ++ '(' :: ([',', ' '].intercalate (args.map text) ++ [')']))
      (.call callee (args.map tree)) := by
  refine (cutsInto_call hcallee fun a ha => (h a ha).cutsInto _).spells ?_
  rintro tokens ⟨name, t, u, phrases, inner, rfl, hkind, rfl, ht, hseparated, htrees, hu⟩
  have hlength := htrees.length_eq
  have hfirst : (phrases.zip (args.map tree)).map (·.1) = phrases :=
    map_fst_zip (by simp [hlength])
  have hsecond : (phrases.zip (args.map tree)).map (·.2) = args.map tree :=
    map_snd_zip (by simp [hlength])
  have hcall := @Derives.call name t u (phrases.zip (args.map tree)) inner hkind ht ?_
    (hfirst.symm ▸ hseparated) hu
  · rw [hsecond] at hcall
    exact .tighter rfl hcall
  · intro pair hpair
    rw [zip_map_right] at hpair
    obtain ⟨⟨phrase, a⟩, hmem, rfl⟩ := mem_map.1 hpair
    have hpair := (forall₂_iff_zip.1 htrees.flip).2 hmem
    exact Derives.loosen hpair (Nat.zero_le _)

/-! ## Operators -/

/-- Every operator has its level and its sign in the grammar. -/
theorem exists_joins_binary (op : BinaryOp) :
    ∃ level next kind, Joins level kind (.binary op) ∧ level.tighter? = some next ∧
      IsSign kind op.symbol.toList := by
  cases op with
  | add => exact ⟨_, _, _, .plus, rfl, .inl ⟨_, rfl, rfl⟩⟩
  | sub => exact ⟨_, _, _, .minus, rfl, .inl ⟨_, rfl, rfl⟩⟩
  | mul => exact ⟨_, _, _, .star, rfl, .inl ⟨_, rfl, rfl⟩⟩
  | div => exact ⟨_, _, _, .slash, rfl, .inl ⟨_, rfl, rfl⟩⟩
  | mod => exact ⟨_, _, _, .percent, rfl, .inl ⟨_, rfl, rfl⟩⟩
  | eq => exact ⟨_, _, _, .eq, rfl, .inr ⟨_, _, rfl, rfl⟩⟩
  | notEq => exact ⟨_, _, _, .notEq, rfl, .inr ⟨_, _, rfl, rfl⟩⟩
  | lt => exact ⟨_, _, _, .lt, rfl, .inl ⟨_, rfl, rfl⟩⟩
  | gt => exact ⟨_, _, _, .gt, rfl, .inl ⟨_, rfl, rfl⟩⟩
  | ltEq => exact ⟨_, _, _, .ltEq, rfl, .inr ⟨_, _, rfl, rfl⟩⟩
  | gtEq => exact ⟨_, _, _, .gtEq, rfl, .inr ⟨_, _, rfl, rfl⟩⟩

theorem exists_joins_logical (op : LogicalOp) :
    ∃ level next kind, Joins level kind (.logical op) ∧ level.tighter? = some next ∧
      IsSign kind op.symbol.toList := by
  cases op with
  | and => exact ⟨_, _, _, .and, rfl, .inr ⟨_, _, rfl, rfl⟩⟩
  | or => exact ⟨_, _, _, .or, rfl, .inr ⟨_, _, rfl, rfl⟩⟩

theorem exists_prefixes (op : UnaryOp) :
    ∃ kind, Prefixes kind op ∧ IsSign kind op.symbol.toList := by
  cases op with
  | neg => exact ⟨_, .minus, .inl ⟨_, rfl, rfl⟩⟩
  | not => exact ⟨_, .not, .inl ⟨_, rfl, rfl⟩⟩

end Grammar

namespace Operand

open Grammar

theorem renderAll_eq_map (args : List Operand) : renderAll args = args.map render := by
  induction args with
  | nil => rfl
  | cons a args ih => rw [renderAll, ih, map_cons]

theorem spelledAll_eq_map (args : List Operand) : spelledAll args = args.map spelled := by
  induction args with
  | nil => rfl
  | cons a args ih => rw [spelledAll, ih, map_cons]

theorem toList_render_call (callee : String) (args : List Operand) :
    (call callee args).render.toList =
      callee.toList ++
        '(' :: ([',', ' '].intercalate (args.map fun a => a.render.toList) ++ [')']) := by
  simp [render, renderAll_eq_map, Function.comp_def]

/-- **The text of an operand is a phrase.** -/
theorem spells_render (op : Operand) (h : op.BuiltFrom IsLegible) :
    Spells op.render.toList op.spelled := by
  induction op with
  | number n =>
    cases n with
    | int n => exact spells_word (h.leaves (.int n) (.head _))
    | float x => exact absurd (h.leaves (.number (.float x)) (.head _)) id
  | text s => exact spells_text (h.leaves (.text s) (.head _))
  | var name => exact spells_var (h.names name (by simp [reads]))
  | binary op lhs rhs ihlhs ihrhs =>
    obtain ⟨level, next, kind, hjoins, hlevel, hsign⟩ := exists_joins_binary op
    obtain ⟨hl, hr⟩ := h.sides rfl rfl rfl
    have hspells := (ihlhs hl).connect (ihrhs hr) hsign hjoins hlevel
    simpa [render, spelled] using hspells
  | unary op operand ih =>
    obtain ⟨kind, hop, hsign⟩ := exists_prefixes op
    have hspells := (ih h.unary).apply hsign hop
    simpa [render, spelled] using hspells
  | logical op lhs rhs ihlhs ihrhs =>
    obtain ⟨level, next, kind, hjoins, hlevel, hsign⟩ := exists_joins_logical op
    obtain ⟨hl, hr⟩ := h.sides rfl rfl rfl
    have hspells := (ihlhs hl).connect (ihrhs hr) hsign hjoins hlevel
    simpa [render, spelled] using hspells
  | call callee args ih =>
    obtain ⟨hcallee, hargs⟩ := builtFrom_call_iff.1 h
    have hspells := spells_call hcallee fun a ha => ih a ha (hargs a ha)
    rwa [toList_render_call, spelled, spelledAll_eq_map]

/-! ## Reading the text -/

/-- Words have no blanks. -/
theorem dense_of_isWord (h : Lexer.IsWord cs) : Text.Dense cs := by
  obtain ⟨⟨c, hc, -⟩, hall⟩ := h
  have hne : cs ≠ [] := ne_nil_of_mem (mem_of_mem_head? hc)
  exact ⟨hne, fun d hd => Lexer.isBlank_of_isNameChar (hall d hd)⟩

theorem dense_of_denotes {n : Int} (h : Decimal.Denotes cs n) : Text.Dense cs := by
  cases h with
  | natural hdigits =>
    exact ⟨hdigits.1, fun d hd => Lexer.isBlank_eq_false (.inr (hdigits.2 d hd))⟩
  | negative hdigits =>
    refine ⟨by simp, forall_mem_cons.2 ⟨by decide, fun d hd => ?_⟩⟩
    exact Lexer.isBlank_eq_false (.inr (hdigits.2 d hd))

theorem dense_wordText (n : Int64) : Text.Dense (Decimal.wordText n).toList :=
  dense_of_denotes (Decimal.denotes_wordText n)

theorem isDigits_of_isNumeral {digits : List Char} (h : Decimal.IsNumeral digits) :
    digits.dropWhile Text.isDecimalDigit = [] ∧ isDigits digits = true := by
  have hall : ∀ c ∈ digits, Text.isDecimalDigit c = true :=
    fun c hc => Text.isDecimalDigit_of_isDigit (h.2 c hc)
  exact ⟨dropWhile_eq_nil_iff.2 hall, by simpa [isDigits, h.1] using hall⟩

theorem isNumericLiteral_of_denotes {n : Int} (h : Decimal.Denotes cs n) :
    isNumericLiteral cs = true ∧ '.' ∉ cs := by
  cases h with
  | natural hdigits =>
    obtain ⟨hdrop, hdigits'⟩ := isDigits_of_isNumeral hdigits
    refine ⟨?_, fun hdot => absurd (hdigits.2 '.' hdot) (by decide)⟩
    unfold isNumericLiteral
    split
    · exact absurd (hdigits.2 '-' (.head _)) (by decide)
    · simp [hdrop, hdigits']
  | negative hdigits =>
    obtain ⟨hdrop, hdigits'⟩ := isDigits_of_isNumeral hdigits
    refine ⟨by simp [isNumericLiteral, hdrop, hdigits'], fun hdot => ?_⟩
    rcases mem_cons.1 hdot with hdot | hdot
    · exact absurd hdot (by decide)
    · exact absurd (hdigits.2 '.' hdot) (by decide)

theorem isNumericLiteral_eq_false (hc : cs.head? = some c) (hdigit : Text.isDecimalDigit c = false)
    (hminus : c ≠ '-') (hdot : c ≠ '.') : isNumericLiteral cs = false := by
  obtain ⟨rest, rfl⟩ := List.head?_eq_some_iff.1 hc
  simp [isNumericLiteral, hdigit, hminus, hdot]

theorem isDecimalDigit_of_isNameStart (h : Lexer.isNameStart c = true) :
    Text.isDecimalDigit c = false := by
  -- the digits of other scripts lie far above the letters, and the ASCII ones below them
  have hzeros : ∀ first ∈ Text.digitZeros, first = 0x30 ∨ 0x660 ≤ first := by decide
  have hrange := Lexer.toNat_of_isNameStart h
  simp only [Text.isDecimalDigit, any_eq_false, Bool.and_eq_true, decide_eq_true_eq]
  intro first hfirst
  have := hzeros first hfirst
  omega

/-- The first character of an operand other than a number. -/
def IsOpening (c : Char) : Prop :=
  c = '(' ∨ c = '"' ∨ Lexer.isNameStart c = true

theorem IsOpening.isBlank_eq_false (h : IsOpening c) : Text.isBlank c = false := by
  rcases h with rfl | rfl | hstart
  · decide
  · decide
  · exact Lexer.isBlank_eq_false (.inl hstart)

/-- Anything but a number begins with a character of its own. -/
theorem BuiltFrom.exists_first (h : op.BuiltFrom IsExact) :
    (∃ n, op = .int n) ∨ ∃ c, op.render.toList.head? = some c ∧ IsOpening c := by
  cases op with
  | number n =>
    cases n with
    | int n => exact .inl ⟨n, rfl⟩
    | float x => exact absurd (h.leaves (.number (.float x)) (.head _)) id
  | text s => exact .inr ⟨'"', by simp [render], .inr (.inl rfl)⟩
  | var name =>
    obtain ⟨⟨⟨c, hc, hstart⟩, -⟩, -⟩ := h.names name (by simp [reads])
    exact .inr ⟨c, by simpa [render] using hc, .inr (.inr hstart)⟩
  | binary | unary | logical => exact .inr ⟨'(', by simp [render], .inl rfl⟩
  | call callee args =>
    obtain ⟨⟨⟨c, hc, hstart⟩, -⟩, -⟩ := h.names callee (by simp [calls])
    exact .inr ⟨c, by simp [render, hc], .inr (.inr hstart)⟩

theorem builtFrom_isExact (h : op.BuiltFrom IsLegible ∨ ∃ n, op = .int n) :
    op.BuiltFrom IsExact := by
  rcases h with h | ⟨n, rfl⟩
  · exact h.imp fun _ => IsLegible.isExact
  · exact ⟨forall_mem_nil _, forall_mem_singleton.2 trivial⟩

/-- The text of an operand neither begins nor ends in a blank. -/
theorem solid_render (h : op.BuiltFrom IsExact) : Text.Solid op.render.toList := by
  obtain ⟨n, rfl⟩ | ⟨c, hc, hopening⟩ := h.exists_first
  · exact (dense_wordText n).solid
  cases op with
  | number n =>
    cases n with
    | int n => exact (dense_wordText n).solid
    | float x => exact absurd (h.leaves (.number (.float x)) (.head _)) id
  | var name => exact (dense_of_isWord (h.names name (by simp [reads])).1).solid
  | text =>
    refine ⟨⟨c, hc, hopening.isBlank_eq_false⟩, '"', ?_, by decide⟩
    rw [render, String.toList_append, List.getLast?_append]
    rfl
  | binary | unary | logical | call =>
    refine ⟨⟨c, hc, hopening.isBlank_eq_false⟩, ')', ?_, by decide⟩
    rw [render, String.toList_append, List.getLast?_append]
    rfl

theorem readOperand_word (hcs : Text.trim cs = (Decimal.wordText n).toList) :
    Linear.readOperand cs = .ok (.int n) := by
  have hdenotes := Decimal.denotes_wordText n
  obtain ⟨hnumeric, hdot⟩ := isNumericLiteral_of_denotes hdenotes
  simp [Linear.readOperand, hcs, hnumeric, hdot,
    (Decimal.readWord_eq_ok_iff hdenotes.head?_ne_plus).2 hdenotes]

theorem tokenize_render (h : op.BuiltFrom IsLegible) :
    ∃ phrase marker, tokenize op.render = .ok (phrase ++ [marker]) ∧ marker.kind = .eof ∧
      (∀ t ∈ phrase, t.kind ≠ .eof) ∧ Derives .assignment phrase op.spelled := by
  obtain ⟨phrase, p, hcuts, hphrase⟩ := spells_render op h .start [] Lexer.apart_nil
  rw [append_nil] at hcuts
  have htokens := Lexer.tokenize_of_cuts hcuts
  obtain ⟨body, marker, heq, -, hbody⟩ := (Lexer.lexed_of_tokenize htokens).exists_marker
  obtain ⟨rfl, -⟩ := append_inj' heq rfl
  exact ⟨phrase, _, htokens, rfl, hbody, hphrase.loosen (Nat.zero_le _)⟩

/-- Anything but a number goes to the parser. -/
theorem IsOpening.isNumericLiteral_eq_false (h : IsOpening c)
    (hc : cs.head? = some c) : isNumericLiteral cs = false := by
  rcases h with rfl | rfl | hstart
  · exact Operand.isNumericLiteral_eq_false hc (by decide) (by decide) (by decide)
  · exact Operand.isNumericLiteral_eq_false hc (by decide) (by decide) (by decide)
  · refine Operand.isNumericLiteral_eq_false hc (isDecimalDigit_of_isNameStart hstart) ?_ ?_ <;>
      rintro rfl <;> exact absurd hstart (by decide)

/-- **An operand is read back from its text, folded.** -/
theorem readOperand_render (h : op.BuiltFrom IsLegible ∨ ∃ n, op = .int n)
    (hcs : Text.trim cs = op.render.toList) : Linear.readOperand cs = .ok op.fold := by
  obtain ⟨n, rfl⟩ | ⟨c, hc, hopening⟩ := (builtFrom_isExact h).exists_first
  · exact readOperand_word hcs
  rcases h with h | ⟨n, rfl⟩
  · have hnumeric := hopening.isNumericLiteral_eq_false hc
    obtain ⟨phrase, marker, htokens, hmarker, heof, hphrase⟩ := tokenize_render h
    have hparse := parseExpression_of_derives hphrase hmarker heof
    simp [Linear.readOperand, hcs, hnumeric, htokens, hparse, hasAssignment_spelled,
      flatten_spelled]
  · exact readOperand_word hcs

/-! ## One line -/

/-- The characters of joined texts. -/
theorem mem_of_mem_intercalate {separator : List Char} {pieces : List (List Char)}
    (h : c ∈ separator.intercalate pieces) : c ∈ separator ∨ ∃ piece ∈ pieces, c ∈ piece := by
  induction pieces with
  | nil => simp at h
  | cons piece pieces ih =>
    cases pieces with
    | nil => exact .inr ⟨piece, .head _, by simpa using h⟩
    | cons next pieces =>
      rw [intercalate_cons_cons, mem_append, mem_append] at h
      rcases h with (h | h) | h
      · exact .inr ⟨piece, .head _, h⟩
      · exact .inl h
      · exact (ih h).imp_right fun ⟨later, hlater, hc⟩ => ⟨later, .tail _ hlater, hc⟩

/-- The text of an operand stays on its line. -/
theorem newline_notMem_render (op : Operand) (h : op.BuiltFrom IsLegible) :
    '\n' ∉ op.render.toList := by
  induction op with
  | number n =>
    cases n with
    | int n => exact (dense_wordText n).newline_notMem
    | float x => exact absurd (h.leaves (.number (.float x)) (.head _)) id
  | text s =>
    have hbody := Text.newline_notMem_of_contents
      (Text.contents_plain (h.leaves (.text s) (.head _)))
    simpa [render, Text.plain] using hbody
  | var name => exact (dense_of_isWord (h.names name (by simp [reads])).1).newline_notMem
  | binary op lhs rhs ihlhs ihrhs | logical op lhs rhs ihlhs ihrhs =>
    obtain ⟨hl, hr⟩ := h.sides rfl rfl rfl
    have hsymbol : '\n' ∉ op.symbol.toList := by cases op <;> decide
    simp [render, hsymbol, ihlhs hl, ihrhs hr]
  | unary op operand ih =>
    have hsymbol : '\n' ∉ op.symbol.toList := by cases op <;> decide
    simp [render, hsymbol, ih h.unary]
  | call callee args ih =>
    obtain ⟨hcallee, hargs⟩ := builtFrom_call_iff.1 h
    have hname := (dense_of_isWord hcallee.1).newline_notMem
    have htexts : '\n' ∉ [',', ' '].intercalate (args.map fun a => a.render.toList) := by
      intro hmem
      rcases mem_of_mem_intercalate hmem with hmem | ⟨piece, hpiece, hmem⟩
      · exact absurd hmem (by decide)
      · obtain ⟨a, ha, rfl⟩ := mem_map.1 hpiece
        exact ih a ha (hargs a ha) hmem
    simp [toList_render_call, hname, htexts]

end Operand

end ImpMachine
