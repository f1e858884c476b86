import ImpMachine.Expansion.Loop

/-!
# Preprocessing a token stream

`macro NAME … endmacro` defines a macro and stays in the stream, `#NAME` stands for the macro's
body, and a counted loop stands for its copies. Every identifier of an expanded body is renamed to
`IDENT_DEPTH_SERIAL`, where the serial number counts the expansions made so far, so that no two
expansions share a name.

An `Engine` remembers the definitions, the expansions under way and a record of every expansion.
Processing can fail half-way and the engine then keeps what was defined and recorded up to that
point, so the functions here return the engine beside the outcome.

Processing ends on every input: an expansion is deeper than the directive it comes from and depth
is limited, and within one depth the weight of the tokens left goes down. The depth is that of the
engine, so the functions say of what they return that no expansion is left under way
(`Engine.Balanced`).
-/

namespace ImpMachine

namespace Expansion

/-- The record of one expansion. -/
structure Record where
  name : String
  line : Nat
  depth : Nat
  serial : Nat
  renamed : Nat
  deriving DecidableEq

/-- The record as a note shows it. -/
def Record.message (r : Record) : String :=
  "#" ++ r.name ++ s!" at line {r.line} (depth {r.depth}, expansion {r.serial}, "
    ++ s!"{r.renamed} identifiers renamed)"

/-- A macro definition read off a token list, and the tokens after it. -/
structure Definition where
  name : Token
  body : List Token
  close : Token
  after : List Token

/-- Reads what follows the keyword of a definition. The first `endmacro` closes it. -/
def readDefinition (keyword : Token) : List Token → Except SourceError Definition
  | [] => .error (.atToken keyword .missingMacroName)
  | name :: rest =>
    if name.kind = .ident then
      match rest.dropWhile (·.kind != .kwEndMacro) with
      | close :: after => .ok ⟨name, rest.takeWhile (·.kind != .kwEndMacro), close, after⟩
      | [] => .error (.atToken keyword (.unterminatedMacro name.text))
    else .error (.atToken name .missingMacroName)

/-- The macro's name in a directive: its text without the leading `#` signs. -/
def directiveName (directive : Token) : String :=
  String.ofList (directive.text.toList.dropWhile (· == '#'))

/-- The name that an identifier gets inside an expansion. -/
def renamedText (depth serial : Nat) (text : String) : String :=
  text ++ s!"_{depth}_{serial}"

/-- The token as it stands inside an expansion. -/
def rename (depth serial : Nat) (t : Token) : Token :=
  if t.kind = .ident then
    let text := renamedText depth serial t.text
    { t with text := text, len := text.length }
  else t

end Expansion

open Expansion

/-- The definitions made and the expansions recorded so far. -/
structure Engine where
  /-- Macro bodies by name, the latest definition first. -/
  macros : List (String × List Token) := []
  /-- The names of the macros being expanded, innermost first. -/
  scopes : List String := []
  /-- The serial number of the next expansion. -/
  serial : Nat := 0
  /-- One record for each expansion, in the order they happened. -/
  trace : Array Record := #[]

namespace Engine

/-- The engine before anything was defined. -/
def empty : Engine := ⟨[], [], 0, #[]⟩

/-- Defines a macro, in place of an earlier one of that name. -/
def define (engine : Engine) (name : String) (body : List Token) : Engine :=
  { engine with macros := (name, body) :: engine.macros }

/-- The body of a macro. -/
def body? (engine : Engine) (name : String) : Option (List Token) :=
  engine.macros.lookup name

/-- The macro is defined. -/
def isDefined (engine : Engine) (name : String) : Bool :=
  (engine.body? name).isSome

/-- The number of expansions under way. -/
def depth (engine : Engine) : Nat :=
  engine.scopes.length

/-- The tokens that stand for a directive if the macro's body is given. -/
def insertion (engine : Engine) (body : List Token) : List Token :=
  body.map (rename (engine.depth + 1) engine.serial)

/-- The engine after an expansion has begun. -/
def enter (engine : Engine) (directive : Token) (body : List Token) : Engine :=
  { engine with
    scopes := directiveName directive :: engine.scopes
    serial := engine.serial + 1
    trace := engine.trace.push
      ⟨directiveName directive, directive.line, engine.depth + 1, engine.serial,
        body.countP (·.kind == .ident)⟩ }

/-- The engine after the innermost expansion has ended. -/
def leave (engine : Engine) : Engine :=
  { engine with scopes := engine.scopes.tail }

/-- The engine after an operation, and its outcome. -/
abbrev Outcome := Engine × Except SourceError (List Token)

/-- The outcome with tokens put in front of it. -/
def Outcome.prepend (front : List Token) (outcome : Outcome) : Outcome :=
  (outcome.1, outcome.2.map (front ++ ·))

/-- The outcome of an expansion that ends, well or not. -/
def Outcome.leave (outcome : Outcome) : Outcome :=
  (outcome.1.leave, outcome.2)

/-- An outcome after which the same expansions are under way as before. -/
abbrev Balanced (engine : Engine) : Type :=
  { outcome : Outcome // outcome.1.scopes = engine.scopes }

end Engine

namespace Expansion

theorem weight_body_lt {keyword : Token} {ts : List Token} {d : Definition}
    (h : readDefinition keyword ts = .ok d) :
    weight 0 d.body < weight 0 (keyword :: ts) ∧ weight 0 d.after < weight 0 (keyword :: ts) := by
  cases ts with
  | nil => simp [readDefinition] at h
  | cons name rest =>
    simp only [readDefinition] at h
    split at h
    · split at h
      · rename_i close after hrest
        obtain rfl := Except.ok.inj h
        have hlist : weight 0 rest < weight 0 (keyword :: name :: rest) :=
          Nat.lt_trans (weight_lt_cons name rest) (weight_lt_cons keyword _)
        have hsplit := List.takeWhile_append_dropWhile (p := (·.kind != .kwEndMacro)) (l := rest)
        have hbody := weight_le_append 0 (rest.takeWhile (·.kind != .kwEndMacro))
          (rest.dropWhile (·.kind != .kwEndMacro))
        rw [hsplit] at hbody
        have hafter : after <:+ rest :=
          (hrest ▸ List.suffix_cons close after).trans (List.dropWhile_suffix _)
        exact ⟨Nat.lt_of_le_of_lt hbody hlist,
          Nat.lt_of_le_of_lt (weight_le_of_suffix hafter) hlist⟩
      · simp at h
    · simp at h

end Expansion

namespace Engine

theorem depth_congr {engine engine' : Engine} (h : engine'.scopes = engine.scopes) :
    engine'.depth = engine.depth :=
  congrArg List.length h

theorem depth_enter (engine : Engine) (directive : Token) (body : List Token) :
    (engine.enter directive body).depth = engine.depth + 1 := rfl

theorem scopes_leave {engine inner : Engine} {directive : Token} {body : List Token}
    (h : inner.scopes = (engine.enter directive body).scopes) :
    inner.leave.scopes = engine.scopes := by
  rw [leave, h]
  rfl

mutual

/-- Expands a directive. -/
def expandBalanced (engine : Engine) (directive : Token) : Balanced engine :=
  match engine.body? (directiveName directive) with
  | none => ⟨(engine, .error (.atToken directive (.unknownMacro (directiveName directive)))), rfl⟩
  | some body =>
    if _h : engine.depth < maxExpansionDepth then
      let inner := processBalanced (engine.enter directive body) (engine.insertion body)
      ⟨inner.1.leave, scopes_leave inner.2⟩
    else
      ⟨(engine, .error (.atToken directive (.expansionTooDeep (directiveName directive)))), rfl⟩
termination_by (maxExpansionDepth - engine.depth, 0)
decreasing_by
  exact .left _ _ (by rw [depth_enter]; omega)

/-- Processes a token list. -/
def processBalanced (engine : Engine) (tokens : List Token) : Balanced engine :=
  match tokens with
  | [] => ⟨(engine, .ok []), rfl⟩
  | t :: rest =>
    match t.kind with
    | .kwMacro =>
      match _h : readDefinition t rest with
      | .error e => ⟨(engine, .error e), rfl⟩
      | .ok d =>
        match processBalanced (engine.define d.name.text d.body) d.body with
        | ⟨(inner, .error e), hinner⟩ => ⟨(inner, .error e), hinner⟩
        | ⟨(inner, .ok body), hinner⟩ =>
          let after := processBalanced inner d.after
          ⟨after.1.prepend (t :: d.name :: body ++ [d.close]), after.2.trans hinner⟩
    | .directive =>
      match expandBalanced engine t with
      | ⟨(inner, .error e), hinner⟩ => ⟨(inner, .error e), hinner⟩
      | ⟨(inner, .ok body), hinner⟩ =>
        let after := processBalanced inner rest
        ⟨after.1.prepend body, after.2.trans hinner⟩
    | .kwFor =>
      match _h : unrollLoop t rest with
      | .error e => ⟨(engine, .error e), rfl⟩
      | .ok (copies, rest) =>
        match processBalanced engine copies with
        | ⟨(inner, .error e), hinner⟩ => ⟨(inner, .error e), hinner⟩
        | ⟨(inner, .ok body), hinner⟩ =>
          let after := processBalanced inner rest
          ⟨after.1.prepend body, after.2.trans hinner⟩
    | _ =>
      let after := processBalanced engine rest
      ⟨after.1.prepend [t], after.2⟩
termination_by (maxExpansionDepth - engine.depth, weight 0 tokens)
decreasing_by
  · exact .right _ (weight_body_lt _h).1
  · exact depth_congr hinner ▸ .right _ (weight_body_lt _h).2
  · exact .right _ (Nat.lt_of_le_of_lt (Nat.zero_le _) (weight_lt_cons t rest))
  · exact depth_congr hinner ▸ .right _ (weight_lt_cons t rest)
  · exact .right _ (weight_lt_of_unrollLoop _h).1
  · exact depth_congr hinner ▸ .right _ (weight_lt_of_unrollLoop _h).2
  · exact .right _ (weight_lt_cons t rest)

end

/-- Expands a directive. -/
def expand (engine : Engine) (directive : Token) : Outcome :=
  (engine.expandBalanced directive).1

/-- Processes a whole token stream. -/
def process (engine : Engine) (tokens : List Token) : Outcome :=
  (engine.processBalanced tokens).1

end Engine

end ImpMachine
