import ImpMachine.Expansion.Engine
import Mathlib.Data.List.Induction

/-!
# Expansions share no names

An engine is used again and again, and an operation on it can fail half-way. The expansions that it
makes over such a history form a forest: each one stands inside the expansion whose tokens held its
directive (`Performs`, `History`). The records of the engine are this forest in the order of its
directives, with the serial numbers counting from zero and the depth being the level in the forest
(`Forest.entries`), and no expansion is left under way. Since the serial number ends every name that
an expansion makes, two expansions never make the same name, and one expansion keeps different names
apart (`history_hygienic`).
-/

namespace ImpMachine

open List

variable {t : Token} {depth serial level : Nat} {text text' : String}
variable {engine : Engine} {rest : List Token}

namespace Expansion

/-! ## Names -/

theorem toList_renamedText (depth serial : Nat) (text : String) :
    (renamedText depth serial text).toList =
      text.toList ++ '_' :: (Nat.toDigits 10 depth ++ '_' :: Nat.toDigits 10 serial) := by
  have hmark : (toString "_").toList = ['_'] := rfl
  simp [renamedText, Nat.repr, hmark]

theorem underscore_notMem_toDigits (n : Nat) : '_' ∉ Nat.toDigits 10 n := by
  intro h
  have hdigit : ('_').isDigit = true := Nat.isDigit_of_mem_toDigits (by decide) (by decide) h
  revert hdigit
  decide

theorem takeWhile_reverse_renamedText (depth serial : Nat) (text : String) :
    (renamedText depth serial text).toList.reverse.takeWhile (· != '_') =
      (Nat.toDigits 10 serial).reverse := by
  have hdigits : ∀ c ∈ (Nat.toDigits 10 serial).reverse, (c != '_') = true := by
    intro c hc
    rw [bne_iff_ne]
    rintro rfl
    exact underscore_notMem_toDigits serial (mem_reverse.1 hc)
  rw [toList_renamedText]
  simp only [reverse_append, reverse_cons, append_assoc]
  rw [takeWhile_append_of_pos hdigits]
  simp

theorem serial_eq_of_renamedText_eq {depth' serial' : Nat}
    (h : renamedText depth serial text = renamedText depth' serial' text') : serial = serial' := by
  have hdigits := takeWhile_reverse_renamedText depth serial text
  rw [h, takeWhile_reverse_renamedText, reverse_inj] at hdigits
  calc
    serial = Nat.ofDigitChars 10 (Nat.toDigits 10 serial) 0 := Nat.ofDigitChars_ten_toDigits.symm
    _ = Nat.ofDigitChars 10 (Nat.toDigits 10 serial') 0 := by rw [hdigits]
    _ = serial' := Nat.ofDigitChars_ten_toDigits

/-- One expansion keeps names apart. -/
theorem renamedText_inj :
    renamedText depth serial text = renamedText depth serial text' ↔ text = text' := by
  refine ⟨fun h => ?_, fun h => h ▸ rfl⟩
  have hlist := congrArg String.toList h
  rw [toList_renamedText, toList_renamedText] at hlist
  exact String.toList_inj.1 (append_cancel_right hlist)

@[simp] theorem kind_rename (depth serial : Nat) (t : Token) :
    (rename depth serial t).kind = t.kind := by
  unfold rename
  split <;> rfl

theorem text_rename (h : t.kind = .ident) (depth serial : Nat) :
    (rename depth serial t).text = renamedText depth serial t.text := by
  rw [rename, if_pos h]

/-! ## The expansions of a history -/

/-- One expansion: its directive, the macro's body, and the tokens that take the directive's
place. -/
structure Insertion where
  directive : Token
  body : List Token
  tokens : List Token

/-- Expansions in the order of their directives, each with the expansions made inside it. -/
inductive Forest where
  | nil
  | node (first : Insertion) (inner rest : Forest)

/-- An expansion with its level in a forest and its number in the order of the forest. -/
structure Entry where
  insertion : Insertion
  depth : Nat
  serial : Nat

variable {f : Forest} {x : Entry}

/-- The record that belongs to an entry. -/
def Entry.record (x : Entry) : Record :=
  ⟨directiveName x.insertion.directive, x.insertion.directive.line, x.depth, x.serial,
    x.insertion.body.countP (·.kind == .ident)⟩

namespace Forest

def append : Forest → Forest → Forest
  | .nil, other => other
  | .node first inner rest, other => .node first inner (rest.append other)

/-- The number of expansions. -/
def size : Forest → Nat
  | .nil => 0
  | .node _ inner rest => 1 + inner.size + rest.size

/-- The expansions of a forest on a level, outer ones first, numbered from `serial` on. -/
def entries (level serial : Nat) : Forest → List Entry
  | .nil => []
  | .node first inner rest =>
    ⟨first, level + 1, serial⟩ :: (inner.entries (level + 1) (serial + 1) ++
      rest.entries level (serial + 1 + inner.size))

@[simp] theorem size_append (f g : Forest) : (f.append g).size = f.size + g.size := by
  induction f with
  | nil => simp [append, size]
  | node first inner rest _ ih =>
    simp only [append, size, ih]
    omega

theorem entries_append (f g : Forest) (level serial : Nat) :
    (f.append g).entries level serial =
      f.entries level serial ++ g.entries level (serial + f.size) := by
  induction f generalizing serial with
  | nil => simp [append, entries, size]
  | node first inner rest _ ih =>
    have hserial : serial + 1 + inner.size + rest.size = serial + (1 + inner.size + rest.size) := by
      omega
    simp only [append, entries, size, ih, hserial, cons_append, append_assoc]

@[simp] theorem length_entries (f : Forest) (level serial : Nat) :
    (f.entries level serial).length = f.size := by
  induction f generalizing level serial with
  | nil => rfl
  | node first inner rest ihinner ihrest =>
    simp only [entries, size, length_cons, length_append, ihinner, ihrest]
    omega

/-- Entries are numbered one after the other. -/
theorem serial_of_getElem?_entries {k : Nat}
    (h : (f.entries level serial)[k]? = some x) : x.serial = serial + k := by
  induction f generalizing level serial k with
  | nil => simp [entries] at h
  | node first inner rest ihinner ihrest =>
    cases k with
    | zero =>
      cases h
      rfl
    | succ k =>
      rw [entries, List.getElem?_cons_succ] at h
      by_cases hk : k < inner.size
      · rw [List.getElem?_append_left (by simpa using hk)] at h
        rw [ihinner h]
        omega
      · rw [List.getElem?_append_right (by simpa using hk), length_entries] at h
        rw [ihrest h]
        omega

/-- Every level is above the one that the forest stands on. -/
theorem lt_depth_of_mem_entries (h : x ∈ f.entries level serial) : level < x.depth := by
  induction f generalizing level serial with
  | nil => cases h
  | node first inner rest ihinner ihrest =>
    rcases mem_cons.1 h with rfl | h
    · exact Nat.lt_succ_self level
    · rcases mem_append.1 h with h | h
      · exact Nat.lt_of_succ_lt (ihinner h)
      · exact ihrest h

end Forest

end Expansion

open Expansion

/-! ## Operations -/

/-- What can be done with an engine. -/
inductive Operation where
  | define (name : String) (body : List Token)
  | expand (directive : Token)
  | process (tokens : List Token)

/-- What an operation has to process. -/
def Operation.weight : Operation → Nat
  | .process tokens => Expansion.weight 0 tokens
  | _ => 0

/-- How processing begins: with an operation on an engine, whose tokens get a frame. Then the tokens
behind are processed. -/
structure Beginning where
  engine : Engine
  operation : Operation
  frame : List Token → List Token
  after : List Token

variable {b : Beginning}

namespace Engine

/-- The engine after an operation, and what the operation gives. -/
def perform (engine : Engine) : Operation → Outcome
  | .define name body => (engine.define name body, .ok [])
  | .expand directive => engine.expand directive
  | .process tokens => engine.process tokens

/-- A new engine after operations, whether they succeed or fail. -/
def performAll (operations : List Operation) : Engine :=
  operations.foldl (fun engine operation => (engine.perform operation).1) .empty

/-- What a token asks for, with the tokens behind it. One that asks for nothing is its own frame. -/
def beginning (engine : Engine) (t : Token) (rest : List Token) : Except SourceError Beginning :=
  match t.kind with
  | .kwMacro => (readDefinition t rest).map fun d =>
    ⟨engine.define d.name.text d.body, .process d.body,
      fun body => t :: d.name :: body ++ [d.close], d.after⟩
  | .directive => .ok ⟨engine, .expand t, fun body => body, rest⟩
  | .kwFor => (unrollLoop t rest).map fun (copies, after) =>
    ⟨engine, .process copies, fun body => body, after⟩
  | _ => .ok ⟨engine, .process [], fun _ => [t], rest⟩

/-- An operation on an engine makes the expansions of a forest and has an outcome: an expansion is a
tree, and what is made while its tokens are processed stands inside it. -/
inductive Performs : Engine → Operation → Forest → Outcome → Prop where
  | define {engine : Engine} {name : String} {body : List Token} :
      Performs engine (.define name body) .nil (engine.define name body, .ok [])
  | unknown {engine : Engine} {directive : Token} :
      engine.body? (directiveName directive) = none →
      Performs engine (.expand directive) .nil
        (engine, .error (.atToken directive (.unknownMacro (directiveName directive))))
  | tooDeep {engine : Engine} {directive : Token} {body : List Token} :
      engine.body? (directiveName directive) = some body → ¬engine.depth < maxExpansionDepth →
      Performs engine (.expand directive) .nil
        (engine, .error (.atToken directive (.expansionTooDeep (directiveName directive))))
  | expand {engine : Engine} {directive : Token} {body : List Token} {inner : Forest}
      {outcome : Outcome} :
      engine.body? (directiveName directive) = some body → engine.depth < maxExpansionDepth →
      Performs (engine.enter directive body) (.process (engine.insertion body)) inner outcome →
      Performs engine (.expand directive)
        (.node ⟨directive, body, engine.insertion body⟩ inner .nil) outcome.leave
  | nil {engine : Engine} : Performs engine (.process []) .nil (engine, .ok [])
  | malformed {engine : Engine} {t : Token} {rest : List Token} {e : SourceError} :
      engine.beginning t rest = .error e →
      Performs engine (.process (t :: rest)) .nil (engine, .error e)
  | fails {engine inner : Engine} {t : Token} {rest : List Token} {b : Beginning} {f : Forest}
      {e : SourceError} :
      engine.beginning t rest = .ok b → Performs b.engine b.operation f (inner, .error e) →
      Performs engine (.process (t :: rest)) f (inner, .error e)
  | continues {engine inner : Engine} {t : Token} {rest body : List Token} {b : Beginning}
      {f g : Forest} {outcome : Outcome} :
      engine.beginning t rest = .ok b → Performs b.engine b.operation f (inner, .ok body) →
      Performs inner (.process b.after) g outcome →
      Performs engine (.process (t :: rest)) (f.append g) (outcome.prepend (b.frame body))

/-- The expansions that a new engine makes in a sequence of operations, and the engine then. -/
inductive History : List Operation → Forest → Engine → Prop where
  | start : History [] .nil .empty
  | step {operations : List Operation} {operation : Operation} {f g : Forest} {engine : Engine}
      {outcome : Outcome} :
      History operations f engine → Performs engine operation g outcome →
      History (operations ++ [operation]) (f.append g) outcome.1

/-! ## Every operation has its forest -/

theorem scopes_perform (engine : Engine) (operation : Operation) :
    (engine.perform operation).1.scopes = engine.scopes := by
  cases operation with
  | define name body => rfl
  | expand directive => exact (engine.expandBalanced directive).2
  | process tokens => exact (engine.processBalanced tokens).2

/-- An expansion processes the renamed body one level deeper. -/
theorem expand_eq (engine : Engine) (directive : Token) :
    engine.expand directive =
      match engine.body? (directiveName directive) with
      | none => (engine, .error (.atToken directive (.unknownMacro (directiveName directive))))
      | some body =>
        if engine.depth < maxExpansionDepth then
          ((engine.enter directive body).process (engine.insertion body)).leave
        else
          (engine, .error (.atToken directive (.expansionTooDeep (directiveName directive)))) := by
  rw [expand, expandBalanced]
  cases engine.body? (directiveName directive) with
  | none => rfl
  | some body =>
    by_cases hdepth : engine.depth < maxExpansionDepth
    · simp only [hdepth, dif_pos, if_true]
      rfl
    · simp only [hdepth, dif_neg, if_false, not_false_eq_true]

theorem process_nil (engine : Engine) : engine.process [] = (engine, .ok []) := by
  rw [process, processBalanced]

/-- A token that asks for nothing is copied. -/
theorem beginning_of_ne (engine : Engine) (rest : List Token) (hdefinition : t.kind ≠ .kwMacro)
    (hdirective : t.kind ≠ .directive) (hfor : t.kind ≠ .kwFor) :
    engine.beginning t rest = .ok ⟨engine, .process [], fun _ => [t], rest⟩ := by
  unfold beginning
  split
  · exact absurd ‹_› hdefinition
  · exact absurd ‹_› hdirective
  · exact absurd ‹_› hfor
  · rfl

/-- Processing goes on behind the first tokens unless they fail. -/
theorem process_cons (engine : Engine) (t : Token) (rest : List Token) :
    engine.process (t :: rest) =
      match engine.beginning t rest with
      | .error e => (engine, .error e)
      | .ok b =>
        match b.engine.perform b.operation with
        | (inner, .error e) => (inner, .error e)
        | (inner, .ok body) => (inner.process b.after).prepend (b.frame body) := by
  rw [process, processBalanced]
  split
  · rename_i hkind
    simp only [beginning, hkind]
    split
    · rename_i hread
      rw [hread]
      rfl
    · rename_i d hread
      rw [hread]
      dsimp only [Except.map, perform, process]
      split <;> rename_i hinner <;> rw [hinner]
  · rename_i hkind
    simp only [beginning, hkind, perform, expand]
    split <;> rename_i hinner <;> rw [hinner]
    rfl
  · rename_i hkind
    simp only [beginning, hkind]
    split
    · rename_i hread
      rw [hread]
      rfl
    · rename_i copies after hread
      rw [hread]
      dsimp only [Except.map, perform, process]
      split <;> rename_i hinner <;> rw [hinner]
  · rename_i hmacro hdirective hfor
    simp only [beginning_of_ne engine rest hmacro hdirective hfor, perform, process_nil]
    rfl

/-- The first operation starts from the engine given, up to a definition. -/
theorem of_beginning (h : engine.beginning t rest = .ok b) :
    (b.engine = engine ∨ ∃ name body, b.engine = engine.define name body) ∧
      b.operation.weight < weight 0 (t :: rest) ∧ weight 0 b.after < weight 0 (t :: rest) := by
  have hrest := weight_lt_cons t rest
  have hpos : 0 < weight 0 (t :: rest) := Nat.lt_of_le_of_lt (Nat.zero_le _) hrest
  unfold beginning at h
  split at h
  · cases hread : readDefinition t rest with
    | error e =>
      rw [hread] at h
      cases h
    | ok d =>
      rw [hread] at h
      cases h
      exact ⟨.inr ⟨_, _, rfl⟩, weight_body_lt hread⟩
  · cases h
    exact ⟨.inl rfl, hpos, hrest⟩
  · cases hread : unrollLoop t rest with
    | error e =>
      rw [hread] at h
      cases h
    | ok pair =>
      rw [hread] at h
      cases h
      exact ⟨.inl rfl, weight_lt_of_unrollLoop hread⟩
  · cases h
    exact ⟨.inl rfl, hpos, hrest⟩

theorem depth_of_beginning (h : engine.beginning t rest = .ok b) :
    b.engine.depth = engine.depth := by
  rcases (of_beginning h).1 with heq | ⟨name, body, heq⟩ <;> rw [heq]
  rfl

/-- The recursion is that of processing: an expansion is deeper, all else lighter. -/
theorem exists_performs (engine : Engine) (operation : Operation) :
    ∃ f, Performs engine operation f (engine.perform operation) := by
  match operation with
  | .define name body => exact ⟨.nil, .define⟩
  | .expand directive =>
    rw [perform, expand_eq]
    cases hbody : engine.body? (directiveName directive) with
    | none => exact ⟨.nil, .unknown hbody⟩
    | some body =>
      dsimp only
      by_cases hdepth : engine.depth < maxExpansionDepth
      · obtain ⟨inner, hinner⟩ :=
          exists_performs (engine.enter directive body) (.process (engine.insertion body))
        rw [if_pos hdepth]
        exact ⟨_, .expand hbody hdepth hinner⟩
      · rw [if_neg hdepth]
        exact ⟨.nil, .tooDeep hbody hdepth⟩
  | .process [] =>
    rw [perform, process_nil]
    exact ⟨.nil, .nil⟩
  | .process (t :: rest) =>
    rw [perform, process_cons]
    cases hbegin : engine.beginning t rest with
    | error e => exact ⟨.nil, .malformed hbegin⟩
    | ok b =>
      dsimp only
      have hdepth := depth_of_beginning hbegin
      obtain ⟨-, hfirst, hafter⟩ := of_beginning hbegin
      obtain ⟨f, hf⟩ := exists_performs b.engine b.operation
      have hscopes := scopes_perform b.engine b.operation
      rcases hperform : b.engine.perform b.operation with ⟨inner, e | body⟩
      · rw [hperform] at hf
        exact ⟨f, .fails hbegin hf⟩
      · rw [hperform] at hf hscopes
        have hinner := depth_congr hscopes
        obtain ⟨g, hg⟩ := exists_performs inner (.process b.after)
        exact ⟨_, .continues hbegin hf hg⟩
termination_by (maxExpansionDepth - engine.depth, operation.weight)
decreasing_by
  · exact .left _ _ (by rw [depth_enter]; omega)
  · exact hdepth ▸ .right _ hfirst
  · exact (hinner.trans hdepth) ▸ .right _ hafter

/-- Every sequence of operations has its forest. -/
theorem exists_history (operations : List Operation) :
    ∃ f, History operations f (performAll operations) := by
  induction operations using List.reverseRecOn with
  | nil => exact ⟨.nil, .start⟩
  | append_singleton operations operation ih =>
    obtain ⟨f, hf⟩ := ih
    obtain ⟨g, hg⟩ := exists_performs (performAll operations) operation
    refine ⟨f.append g, ?_⟩
    rw [performAll, foldl_append]
    exact hf.step hg

/-! ## What operations leave -/

/-- An engine after the expansions of a forest: they are recorded in its order, with names made from
depth and serial number, and none is under way. -/
structure Extended (engine : Engine) (f : Forest) (engine' : Engine) : Prop where
  scopes : engine'.scopes = engine.scopes
  serial : engine'.serial = engine.serial + f.size
  trace : engine'.trace.toList =
    engine.trace.toList ++ (f.entries engine.depth engine.serial).map Entry.record
  renamed : ∀ x ∈ f.entries engine.depth engine.serial,
    x.insertion.tokens = x.insertion.body.map (rename x.depth x.serial)
  depth_le : ∀ x ∈ f.entries engine.depth engine.serial, x.depth ≤ maxExpansionDepth

namespace Extended

variable {engine' engine'' : Engine} {g : Forest} {body : List Token}

theorem refl (engine : Engine) : Extended engine .nil engine where
  scopes := rfl
  serial := rfl
  trace := by simp [Forest.entries]
  renamed := by simp [Forest.entries]
  depth_le := by simp [Forest.entries]

theorem of_define {name : String} (h : Extended (engine.define name body) f engine') :
    Extended engine f engine' :=
  ⟨h.scopes, h.serial, h.trace, h.renamed, h.depth_le⟩

theorem trans (h : Extended engine f engine') (h' : Extended engine' g engine'') :
    Extended engine (f.append g) engine'' := by
  obtain ⟨hscopes, hserial, htrace, hrenamed, hdepth⟩ := h'
  rw [depth_congr h.scopes, h.serial] at htrace hrenamed hdepth
  refine ⟨hscopes.trans h.scopes, ?_, ?_, ?_, ?_⟩
  · rw [hserial, h.serial, Forest.size_append, Nat.add_assoc]
  · rw [htrace, h.trace, Forest.entries_append, map_append, append_assoc]
  · rw [Forest.entries_append]
    exact forall_mem_append.2 ⟨h.renamed, hrenamed⟩
  · rw [Forest.entries_append]
    exact forall_mem_append.2 ⟨h.depth_le, hdepth⟩

/-- An expansion is recorded in front of those inside it. -/
theorem expand {directive : Token} (hlt : engine.depth < maxExpansionDepth)
    (h : Extended (engine.enter directive body) f engine') :
    Extended engine (.node ⟨directive, body, engine.insertion body⟩ f .nil) engine'.leave := by
  obtain ⟨hscopes, hserial, htrace, hrenamed, hdepth⟩ := h
  refine ⟨scopes_leave hscopes, ?_, ?_, ?_, ?_⟩
  · change engine'.serial = _
    have henter : (engine.enter directive body).serial = engine.serial + 1 := rfl
    rw [hserial, henter, Forest.size, Forest.size]
    omega
  · change engine'.trace.toList = _
    rw [htrace]
    simp [enter, depth, Forest.entries, Entry.record]
  · simp only [Forest.entries, append_nil, forall_mem_cons]
    exact ⟨rfl, hrenamed⟩
  · simp only [Forest.entries, append_nil, forall_mem_cons]
    exact ⟨hlt, hdepth⟩

end Extended

/-- **One operation**, by the way it takes. -/
theorem Performs.extended {operation : Operation} {outcome : Outcome}
    (h : Performs engine operation f outcome) : Extended engine f outcome.1 := by
  have before {engine engine' : Engine} {t : Token} {rest : List Token} {b : Beginning} {f : Forest}
      (hbegin : engine.beginning t rest = .ok b) (h : Extended b.engine f engine') :
      Extended engine f engine' := by
    rcases (of_beginning hbegin).1 with heq | ⟨name, body, heq⟩
    · exact heq ▸ h
    · exact (heq ▸ h).of_define
  induction h with
  | define => exact (Extended.refl _).of_define
  | unknown | tooDeep | nil | malformed => exact .refl _
  | expand _ hdepth _ ih => exact .expand hdepth ih
  | fails hbegin _ ih => exact before hbegin ih
  | continues hbegin _ _ ihfirst ihafter => exact (before hbegin ihfirst).trans ihafter

/-- **A whole history.** -/
theorem History.extended {operations : List Operation}
    (h : History operations f engine) : Extended .empty f engine := by
  induction h with
  | start => exact .refl _
  | step _ hperforms ih => exact ih.trans hperforms.extended

end Engine

/-! ## Hygiene -/

/-- The engine has recorded the expansions of a forest, which share no names. -/
structure Hygienic (f : Forest) (engine : Engine) : Prop where
  /-- No expansion is under way. -/
  scopes : engine.scopes = []
  /-- The records are those of the forest in its order, with the levels as depths. -/
  trace : engine.trace.toList = (f.entries 0 0).map Entry.record
  /-- Serial numbers count the expansions, and depths are limited. -/
  records : ∀ (k : Nat) (record : Record), engine.trace[k]? = some record →
    record.serial = k ∧ 1 ≤ record.depth ∧ record.depth ≤ 32
  /-- Expansions with different serial numbers make different names. -/
  apart : ∀ x ∈ f.entries 0 0, ∀ y ∈ f.entries 0 0, x.serial ≠ y.serial →
    ∀ t ∈ x.insertion.tokens, ∀ u ∈ y.insertion.tokens, t.kind = .ident → u.kind = .ident →
      t.text ≠ u.text
  /-- One expansion keeps the tokens of the body in their places, and two identifiers get one name
  exactly if they had one. -/
  within : ∀ x ∈ f.entries 0 0, x.insertion.tokens.map (·.kind) = x.insertion.body.map (·.kind) ∧
    ∀ (i j : Nat) (t u t' u' : Token), x.insertion.body[i]? = some t → x.insertion.body[j]? = some u →
      x.insertion.tokens[i]? = some t' → x.insertion.tokens[j]? = some u' →
      t.kind = .ident → u.kind = .ident → (t'.text = u'.text ↔ t.text = u.text)

/-- **Expansions share no names, whatever the history of the engine.** -/
theorem history_hygienic (operations : List Operation) :
    ∃ f, Engine.History operations f (.performAll operations) ∧
      Hygienic f (.performAll operations) := by
  obtain ⟨f, hf⟩ := Engine.exists_history operations
  refine ⟨f, hf, ?_⟩
  obtain ⟨hscopes, hserial, htrace, hrenamed, hdepth⟩ := hf.extended
  change _ = [] ++ (f.entries 0 0).map Entry.record at htrace
  change ∀ x ∈ f.entries 0 0, _ at hrenamed
  change ∀ x ∈ f.entries 0 0, _ at hdepth
  refine ⟨hscopes, htrace, fun k record hk => ?_, fun x hx y hy hne t ht u hu hkind hkind' heq => ?_,
    fun x hx => ⟨?_, fun i j t u t' u' ht hu ht' hu' hkind hkind' => ?_⟩⟩
  · rw [← Array.getElem?_toList, htrace, nil_append, List.getElem?_map,
      Option.map_eq_some_iff] at hk
    obtain ⟨x, hx, rfl⟩ := hk
    have hmem := mem_of_getElem? hx
    refine ⟨?_, Forest.lt_depth_of_mem_entries hmem, hdepth x hmem⟩
    rw [Entry.record, Forest.serial_of_getElem?_entries hx, Nat.zero_add]
  · rw [hrenamed x hx, mem_map] at ht
    rw [hrenamed y hy, mem_map] at hu
    obtain ⟨t, -, rfl⟩ := ht
    obtain ⟨u, -, rfl⟩ := hu
    rw [kind_rename] at hkind hkind'
    rw [text_rename hkind, text_rename hkind'] at heq
    exact hne (serial_eq_of_renamedText_eq heq)
  · rw [hrenamed x hx, map_map]
    exact map_congr_left fun t _ => kind_rename _ _ t
  · rw [hrenamed x hx, List.getElem?_map, ht, Option.map_some, Option.some.injEq] at ht'
    rw [hrenamed x hx, List.getElem?_map, hu, Option.map_some, Option.some.injEq] at hu'
    rw [← ht', ← hu', text_rename hkind, text_rename hkind', renamedText_inj]

end ImpMachine
