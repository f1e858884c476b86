import Mathlib.Logic.Relation
import ImpMachine.Proofs.Hygiene

/-!
# Processing ends

Processing a token list calls itself: for the body of a definition, for the tokens of an expansion
and for the copies of a loop. Here the calls stand on a stack, and `Stage.step` handles one token,
makes one call or returns from one. Nothing in a step says that a run ends, and the tokens of a call
may be far more than the ones that ask for it.

A call is made either one expansion deeper, up to a limit, or with tokens of less weight than the
caller has left (`gauge_of_makesCall`), and a caller goes on with less weight too. So a call
returns, whatever the stack below it (`returns`), with the outcome of `process`. Hence no run goes
on for ever, from whatever stage it starts (`process_halts`).
-/

namespace ImpMachine

open Expansion Engine

/-- A call of processing that waits for another one to return. -/
structure Caller where
  /-- The tokens written before the call. -/
  written : List Token
  /-- The tokens to write behind those of the call. -/
  close : List Token
  /-- The tokens to go on with. -/
  rest : List Token
  /-- The call is an expansion, which ends when it returns. -/
  expands : Bool

/-- The engine with which a caller goes on. -/
def Caller.resume (c : Caller) (engine : Engine) : Engine :=
  if c.expands then engine.leave else engine

/-- How far processing has come, with the callers of the call under way, innermost first. -/
inductive Stage where
  | working (engine : Engine) (written rest : List Token) (callers : List Caller)
  | failing (engine : Engine) (error : SourceError) (callers : List Caller)

namespace Stage

/-- What happens at a token, with the tokens `rest` behind it. -/
def act (engine : Engine) (written : List Token) (t : Token) (rest : List Token)
    (callers : List Caller) : Stage :=
  match t.kind with
  | .kwMacro =>
    match readDefinition t rest with
    | .error e => .failing engine e callers
    | .ok d =>
      .working (engine.define d.name.text d.body) [] d.body
        (⟨written ++ [t, d.name], [d.close], d.after, false⟩ :: callers)
  | .directive =>
    match engine.body? (directiveName t) with
    | none => .failing engine (.atToken t (.unknownMacro (directiveName t))) callers
    | some body =>
      if engine.depth < maxExpansionDepth then
        .working (engine.enter t body) [] (engine.insertion body)
          (⟨written, [], rest, true⟩ :: callers)
      else .failing engine (.atToken t (.expansionTooDeep (directiveName t))) callers
  | .kwFor =>
    match unrollLoop t rest with
    | .error e => .failing engine e callers
    | .ok (copies, after) => .working engine [] copies (⟨written, [], after, false⟩ :: callers)
  | _ => .working engine (written ++ [t]) rest callers

/-- One step: a token is handled, or the innermost call returns, well or not. -/
def step : Stage → Option Stage
  | .working engine written (t :: rest) callers => some (act engine written t rest callers)
  | .working engine written [] (c :: callers) =>
    some (.working (c.resume engine) (c.written ++ written ++ c.close) c.rest callers)
  | .failing engine e (c :: callers) => some (.failing (c.resume engine) e callers)
  | .working _ _ [] [] | .failing _ _ [] => none

/-- The stage at which a call has come to its outcome and returns next. -/
def returning (written : List Token) (outcome : Engine.Outcome) (callers : List Caller) : Stage :=
  match outcome.2 with
  | .ok tokens => .working outcome.1 (written ++ tokens) [] callers
  | .error e => .failing outcome.1 e callers

/-- The calls that have not returned, apart from the one under way. -/
def callers : Stage → List Caller
  | .working _ _ _ callers | .failing _ _ callers => callers

/-- How many expansions may still be nested, and the weight of the tokens left to the call. -/
def gauge : Stage → Nat × Nat
  | .working engine _ rest _ => (maxExpansionDepth - engine.depth, weight 0 rest)
  | .failing engine _ _ => (maxExpansionDepth - engine.depth, 0)

/-- The first stage leads to the second. -/
abbrev Leads : Stage → Stage → Prop :=
  Relation.ReflTransGen fun earlier later => earlier.step = some later

/-! ## One step -/

/-- A token makes a call: the caller waits with what stands in front, and the measure goes down for
the call and for what the caller has left. -/
structure Calls (engine : Engine) (t : Token) (rest : List Token) (inner : Engine)
    (tokens front : List Token) (c : Caller) : Prop where
  /-- The call has more expansions around it, or less weight to process. -/
  lower : Prod.Lex (· < ·) (· < ·) (maxExpansionDepth - inner.depth, weight 0 tokens)
    (maxExpansionDepth - engine.depth, weight 0 (t :: rest))
  /-- When the call has ended its expansions, the caller has those that it had. -/
  resumes : ∀ last : Engine, last.scopes = inner.scopes → (c.resume last).scopes = engine.scopes
  /-- The caller has less weight left. -/
  rest_lt : weight 0 c.rest < weight 0 (t :: rest)
  /-- Processing is the call, and then the rest unless the call fails. -/
  process_eq : engine.process (t :: rest) =
    match inner.process tokens with
    | (last, .error e) => (c.resume last, .error e)
    | (last, .ok body) => ((c.resume last).process c.rest).prepend (front ++ body ++ c.close)

variable {engine : Engine} {written : List Token} {t : Token} {rest : List Token}
  {callers : List Caller}

theorem calls_definition {d : Definition} (hkind : t.kind = .kwMacro)
    (hread : readDefinition t rest = .ok d) :
    Calls engine t rest (engine.define d.name.text d.body) d.body [t, d.name]
      ⟨written ++ [t, d.name], [d.close], d.after, false⟩ where
  lower := .right _ (weight_body_lt hread).1
  resumes _ h := h
  rest_lt := (weight_body_lt hread).2
  process_eq := by
    rw [process_cons]
    simp only [Engine.beginning, hkind, hread, Except.map, Engine.perform]
    rfl

theorem calls_expansion {body : List Token} (hkind : t.kind = .directive)
    (hbody : engine.body? (directiveName t) = some body)
    (hdepth : engine.depth < maxExpansionDepth) :
    Calls engine t rest (engine.enter t body) (engine.insertion body) []
      ⟨written, [], rest, true⟩ where
  lower := .left _ _ (by rw [depth_enter]; omega)
  resumes _ h := scopes_leave h
  rest_lt := weight_lt_cons t rest
  process_eq := by
    rw [process_cons]
    simp only [Engine.beginning, hkind, Engine.perform, expand_eq, hbody, if_pos hdepth]
    rcases (engine.enter t body).process (engine.insertion body) with ⟨last, e | out⟩
    · rfl
    · simp [Engine.Outcome.leave, Caller.resume]

theorem calls_loop {copies after : List Token} (hkind : t.kind = .kwFor)
    (hread : unrollLoop t rest = .ok (copies, after)) :
    Calls engine t rest engine copies [] ⟨written, [], after, false⟩ where
  lower := .right _ (weight_lt_of_unrollLoop hread).1
  resumes _ h := h
  rest_lt := (weight_lt_of_unrollLoop hread).2
  process_eq := by
    rw [process_cons]
    simp only [Engine.beginning, hkind, hread, Except.map, Engine.perform]
    rcases engine.process copies with ⟨last, e | out⟩
    · rfl
    · simp [Caller.resume]

/-- **All that can happen at a token**: it cannot be handled, is copied, or makes a call. -/
theorem act_cases (engine : Engine) (written : List Token) (t : Token) (rest : List Token)
    (callers : List Caller) :
    (∃ e, act engine written t rest callers = .failing engine e callers ∧
        engine.process (t :: rest) = (engine, .error e)) ∨
      (act engine written t rest callers = .working engine (written ++ [t]) rest callers ∧
        engine.process (t :: rest) = (engine.process rest).prepend [t]) ∨
      ∃ inner tokens front c, Calls engine t rest inner tokens front c ∧
        c.written = written ++ front ∧
        act engine written t rest callers = .working inner [] tokens (c :: callers) := by
  unfold act
  split
  · rename_i hkind
    cases hread : readDefinition t rest with
    | error e =>
      refine .inl ⟨e, rfl, ?_⟩
      rw [process_cons]
      simp only [Engine.beginning, hkind, hread, Except.map]
    | ok d => exact .inr (.inr ⟨_, _, _, _, calls_definition hkind hread, rfl, rfl⟩)
  · rename_i hkind
    cases hbody : engine.body? (directiveName t) with
    | none =>
      refine .inl ⟨_, rfl, ?_⟩
      rw [process_cons]
      simp only [Engine.beginning, hkind, Engine.perform, expand_eq, hbody]
    | some body =>
      dsimp only
      split
      · rename_i hdepth
        exact .inr (.inr ⟨_, _, _, _, calls_expansion hkind hbody hdepth, by simp, rfl⟩)
      · rename_i hdepth
        refine .inl ⟨_, rfl, ?_⟩
        rw [process_cons]
        simp only [Engine.beginning, hkind, Engine.perform, expand_eq, hbody, if_neg hdepth]
  · rename_i hkind
    cases hread : unrollLoop t rest with
    | error e =>
      refine .inl ⟨e, rfl, ?_⟩
      rw [process_cons]
      simp only [Engine.beginning, hkind, hread, Except.map]
    | ok pair => exact .inr (.inr ⟨_, _, _, _, calls_loop hkind hread, by simp, rfl⟩)
  · rename_i hmacro hdirective hfor
    refine .inr (.inl ⟨rfl, ?_⟩)
    rw [process_cons, beginning_of_ne engine rest hmacro hdirective hfor]
    simp only [Engine.perform, process_nil]

/-- A step that makes a call. -/
def MakesCall (earlier later : Stage) : Prop :=
  earlier.step = some later ∧ ∃ c, later.callers = c :: earlier.callers

/-- **Calls lower the measure.** No other step adds a caller. -/
theorem gauge_of_makesCall {earlier later : Stage} (h : MakesCall earlier later) :
    Prod.Lex (· < ·) (· < ·) later.gauge earlier.gauge := by
  obtain ⟨hstep, c, hcallers⟩ := h
  -- a list is not the tail of a shorter one, and not its own tail
  have hlength := congrArg List.length hcallers
  cases earlier with
  | failing engine e callers =>
    cases callers with
    | nil => cases hstep
    | cons c' callers =>
      cases hstep
      simp [Stage.callers] at hlength
      omega
  | working engine written rest callers =>
    cases rest with
    | nil =>
      cases callers with
      | nil => cases hstep
      | cons c' callers =>
        cases hstep
        simp [Stage.callers] at hlength
        omega
    | cons t rest =>
      obtain rfl : act engine written t rest callers = later := Option.some.inj hstep
      rcases act_cases engine written t rest callers with
        ⟨e, hact, -⟩ | ⟨hact, -⟩ | ⟨inner, tokens, front, c, hcalls, -, hact⟩
      · rw [hact] at hlength
        simp [Stage.callers] at hlength
      · rw [hact] at hlength
        simp [Stage.callers] at hlength
      · rw [hact]
        exact hcalls.lower

/-! ## A whole run -/

theorem returning_prepend (written front : List Token) (outcome : Engine.Outcome)
    (callers : List Caller) :
    returning written (outcome.prepend front) callers =
      returning (written ++ front) outcome callers := by
  obtain ⟨last, e | tokens⟩ := outcome
  · rfl
  · simp [returning, Engine.Outcome.prepend, Except.map]

/-- **A call returns** with the outcome of processing, whatever waits for it. -/
theorem returns (engine : Engine) (tokens written : List Token) (callers : List Caller) :
    Leads (.working engine written tokens callers)
      (returning written (engine.process tokens) callers) := by
  match tokens with
  | [] =>
    rw [process_nil]
    simpa [returning] using Relation.ReflTransGen.refl
  | t :: rest =>
    refine .head (b := act engine written t rest callers) rfl ?_
    rcases act_cases engine written t rest callers with
      ⟨e, hact, hprocess⟩ | ⟨hact, hprocess⟩ | ⟨inner, tokens, front, c, hcalls, hwritten, hact⟩
    · rw [hact, hprocess]
      exact .refl
    · rw [hact, hprocess, returning_prepend]
      have hrest := weight_lt_cons t rest
      exact returns engine rest _ callers
    · rw [hact, hcalls.process_eq]
      have hlower := hcalls.lower
      refine (returns inner tokens [] (c :: callers)).trans ?_
      have hscopes := hcalls.resumes _ (scopes_perform inner (.process tokens))
      rw [Engine.perform] at hscopes
      rcases hinner : inner.process tokens with ⟨last, e | body⟩
      · exact .single rfl
      · rw [hinner] at hscopes
        have hdepth := depth_congr hscopes
        have hrest := hcalls.rest_lt
        refine .head (b := .working (c.resume last) (c.written ++ body ++ c.close) c.rest callers)
          rfl ?_
        simp only [returning_prepend]
        rw [hwritten, List.append_assoc, List.append_assoc, ← List.append_assoc front]
        exact returns (c.resume last) c.rest _ callers
termination_by (maxExpansionDepth - engine.depth, weight 0 tokens)
decreasing_by
  · exact .right _ hrest
  · exact hlower
  · exact hdepth ▸ .right _ hrest

theorem step_returning (written : List Token) (outcome : Engine.Outcome) :
    (returning written outcome []).step = none := by
  obtain ⟨last, e | tokens⟩ := outcome <;> rfl

/-- The stage after that many steps, or the last one. -/
def after : Nat → Stage → Stage
  | 0, s => s
  | n + 1, s =>
    match s.step with
    | none => s
    | some next => next.after n

/-- The outcome of the outermost call, once it has returned. -/
def outcome? : Stage → Option Engine.Outcome
  | .working engine written [] [] => some (engine, .ok written)
  | .failing engine e [] => some (engine, .error e)
  | _ => none

theorem leads_after (n : Nat) (s : Stage) : Leads s (s.after n) := by
  induction n generalizing s with
  | zero => exact .refl
  | succ n ih =>
    unfold after
    split
    · exact .refl
    · rename_i next hstep
      exact .head hstep (ih next)

theorem eq_of_leads {s last : Stage} (h : Leads s last) (hs : s.step = none) : s = last := by
  rcases h.cases_head with heq | ⟨next, hstep, -⟩
  · exact heq
  · rw [hs] at hstep
    cases hstep

/-- **Processing can be run step by step**: an outcome reached is that of `process`. -/
theorem apply_process {α : Type} (n : Nat) (f : Engine.Outcome → α) {tokens : List Token} {a : α}
    (h : ((working engine [] tokens []).after n).outcome?.map f = some a) :
    f (engine.process tokens) = a := by
  obtain ⟨outcome, houtcome, rfl⟩ := Option.map_eq_some_iff.1 h
  have hlast : ((working engine [] tokens []).after n).step = none := by
    revert houtcome
    generalize (working engine [] tokens []).after n = s
    intro houtcome
    unfold outcome? at houtcome
    split at houtcome
    · rfl
    · rfl
    · cases houtcome
  have hunique : Relator.RightUnique fun earlier later : Stage => earlier.step = some later :=
    fun _ _ _ h h' => Option.some.inj (h.symm.trans h')
  have heq : (working engine [] tokens []).after n = returning [] (engine.process tokens) [] := by
    rcases Relation.ReflTransGen.total_of_right_unique hunique (leads_after n _)
      (returns engine tokens [] []) with hleads | hleads
    · exact eq_of_leads hleads hlast
    · exact (eq_of_leads hleads (step_returning _ _)).symm
  rw [heq] at houtcome
  generalize engine.process tokens = processed at houtcome ⊢
  obtain ⟨last, e | written⟩ := processed
  · cases houtcome
    rfl
  · cases houtcome
    rfl

/-- A failure goes through all callers. -/
theorem failing_ends (engine : Engine) (e : SourceError) (callers : List Caller) :
    ∃ last, Leads (.failing engine e callers) last ∧ last.step = none := by
  induction callers generalizing engine with
  | nil => exact ⟨_, .refl, rfl⟩
  | cons c callers ih =>
    obtain ⟨last, hleads, hlast⟩ := ih (c.resume engine)
    exact ⟨last, .head rfl hleads, hlast⟩

/-- The call under way returns, and then its callers one by one. -/
theorem exists_last (s : Stage) : ∃ last, Leads s last ∧ last.step = none := by
  cases s with
  | failing engine e callers => exact failing_ends engine e callers
  | working engine written rest callers =>
    induction callers generalizing engine written rest with
    | nil => exact ⟨_, returns engine rest written [], step_returning _ _⟩
    | cons c callers ih =>
      have hreturns := returns engine rest written (c :: callers)
      rcases hprocess : engine.process rest with ⟨inner, e | tokens⟩
      · rw [hprocess] at hreturns
        obtain ⟨last, hleads, hlast⟩ := failing_ends inner e (c :: callers)
        exact ⟨last, hreturns.trans hleads, hlast⟩
      · rw [hprocess] at hreturns
        obtain ⟨last, hleads, hlast⟩ :=
          ih (c.resume inner) (c.written ++ (written ++ tokens) ++ c.close) c.rest
        exact ⟨last, hreturns.trans (.head rfl hleads), hlast⟩

/-- There is one run from a stage, so it is finite if it has an end. -/
theorem acc_of_leads {s last : Stage} (h : Leads s last) (hlast : last.step = none) :
    Acc (fun later earlier : Stage => earlier.step = some later) s := by
  induction h using Relation.ReflTransGen.head_induction_on with
  | refl =>
    refine ⟨_, fun later hlater => ?_⟩
    rw [hlast] at hlater
    cases hlater
  | head hstep _ ih =>
    refine ⟨_, fun later hlater => ?_⟩
    obtain rfl := Option.some.inj (hstep.symm.trans hlater)
    exact ih

end Stage

/-- **Processing ends on every input.** A run of processing, one token, call or return at a time,
comes to a last stage, and this holds the outcome of `process`. Each of its calls is deeper in
expansions or is given less weight than its caller had, and there is no infinite run from any stage
at all. -/
theorem process_halts (engine : Engine) (tokens : List Token) :
    (Stage.Leads (.working engine [] tokens []) (.returning [] (engine.process tokens) []) ∧
        (Stage.returning [] (engine.process tokens) []).step = none) ∧
      (∀ earlier later : Stage, earlier.MakesCall later →
        Prod.Lex (· < ·) (· < ·) later.gauge earlier.gauge) ∧
      WellFounded fun later earlier : Stage => earlier.step = some later := by
  refine ⟨⟨Stage.returns engine tokens [] [], Stage.step_returning _ _⟩,
    fun _ _ => Stage.gauge_of_makesCall, ⟨fun s => ?_⟩⟩
  obtain ⟨last, hleads, hlast⟩ := s.exists_last
  exact Stage.acc_of_leads hleads hlast

end ImpMachine
