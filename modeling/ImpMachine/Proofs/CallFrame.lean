import ImpMachine.Proofs.BodyRegisters
import ImpMachine.Proofs.CallStack
import ImpMachine.Proofs.Layout

/-!
# What a call leaves to its callers

There are no stack frames: every parameter, variable and temporary has a fixed register. A call goes
back behind itself with the stacks of calls and loops as they were, and what it changes is said by
the register map that is left when all functions have been lowered (`CallerKept`). A register that
is free then, or reserved for another function, is not touched. A register that a name holds may be:
the function that gave a shared name its register can have used that register for a temporary
before, and its code sets it on every call. No other function does so (`Assembled.ScratchOnce`). So
a caller keeps its temporaries, parameters and variables up to names that both it and a function
reached by the call mention (`assemble_call_frame`), and `sharedScratch` shows that a shared name
can lose its value where no function sets it.
-/

namespace ImpMachine

open Assembly Linear RegisterMap List

variable {k base steps : Nat} {d : Draft} {s body : Shape} {r : Register} {is : List Instruction}
variable {code : List Instr} {image : Image} {g : Function} {u t : Turn} {turns : List Turn}

/-! ## Parameters -/

namespace Assembly

/-- The step gives the names registers, no name a second one, and gives up nothing. -/
def BindsAll (names : List String) (x : Lowering Unit) : Prop :=
  ∀ s s', x s = .ok ((), s') → s'.scope = s.scope ∧ s'.registers.frames = s.registers.frames ∧
    Kept s.registers s'.registers ∧ (s.registers.Unique → s'.registers.Unique) ∧
    ∀ y ∈ names, ∃ r, s'.registers.holder r = some (.named y)

namespace BindsAll

variable {α : Type} {names names' : List String} {x : Lowering Unit}

theorem pure : BindsAll [] (Pure.pure () : Lowering Unit) := by
  rintro s s' ⟨⟩
  exact ⟨rfl, rfl, id, id, by simp⟩

theorem bind {f : Unit → Lowering Unit} (hx : BindsAll names x) (hf : BindsAll names' (f ())) :
    BindsAll (names ++ names') (x >>= f) := by
  intro s s'' h
  obtain ⟨⟨⟩, s', hs', hs''⟩ := run_bind_eq_ok.1 h
  obtain ⟨hscope, hframes, hkept, hunique, hnames⟩ := hx s s' hs'
  obtain ⟨hscope', hframes', hkept', hunique', hnames'⟩ := hf s' s'' hs''
  refine ⟨hscope'.trans hscope, hframes'.trans hframes, fun hr => hkept' (hkept hr),
    hunique' ∘ hunique, ?_⟩
  refine forall_mem_append.2 ⟨fun y hy => ?_, hnames'⟩
  obtain ⟨r, hr⟩ := hnames y hy
  exact ⟨r, hkept' hr⟩

theorem bindGlobal (name : String) :
    BindsAll [name] (do let _ ← allocate (RegisterMap.bindGlobal name)) := by
  intro s s' h
  obtain ⟨b, s₁, hb, ⟨⟩⟩ := run_bind_eq_ok.1 h
  unfold allocate at hb
  cases hbind : RegisterMap.bindGlobal name s.registers with
  | error e =>
    rw [hbind] at hb
    cases hb
  | ok p =>
    rw [hbind] at hb
    cases hb
    rcases bindGlobal_cases hbind with ⟨hholder, hsame, -⟩ | ⟨hnone, hfree, htaken, -⟩
    · rw [hsame]
      exact ⟨rfl, rfl, id, id, forall_mem_singleton.2 ⟨_, hholder⟩⟩
    · rw [htaken]
      refine ⟨rfl, rfl, fun {r h} hr => ?_, fun hunique => hunique.take _ ?_,
        forall_mem_singleton.2 ⟨p.1.register, ?_⟩⟩
      · rw [holder_take, if_neg, hr]
        rintro rfl
        rw [hfree] at hr
        cases hr
      · rintro x ⟨⟩
        exact hnone
      · rw [holder_take, if_pos rfl]

theorem forM {l : List α} {f : α → Lowering Unit} {names : α → List String}
    (h : ∀ a, BindsAll (names a) (f a)) : BindsAll (l.flatMap names) (l.forM f) := by
  induction l with
  | nil => exact pure
  | cons a l ih => exact (h a).bind ih

end BindsAll

/-- The key of the returned value, if there is a function to return one. -/
def returnNames (functions : List Function) : List String :=
  if functions.isEmpty then [] else [returnName]

/-- Parameters and the returned value have registers from the start. -/
theorem bindsAll_bindParameters (functions : List Function) :
    BindsAll ((functions.flatMap fun f => f.params.map (qualified f.name)) ++
      returnNames functions) (bindParameters functions) := by
  have hparams : BindsAll (functions.flatMap fun f => f.params.map (qualified f.name))
      (functions.forM fun f => f.params.forM fun param => do
        let _ ← allocate (RegisterMap.bindGlobal (qualified f.name param))) := by
    refine .forM fun f => ?_
    rw [map_eq_flatMap]
    exact .forM fun param => .bindGlobal _
  have hreturn : BindsAll (returnNames functions) (if !functions.isEmpty then do
      let _ ← allocate (RegisterMap.bindGlobal returnName) else Pure.pure () : Lowering Unit) := by
    cases functions with
    | nil => exact .pure
    | cons f rest => exact .bindGlobal returnName
  exact hparams.bind (f := fun _ => _) hreturn

end Assembly

/-! ## Bodies of a program -/

/-- The top-level code or a function: its tree, its scope, where its code starts and its
instructions, with the stop or return at the end. -/
structure Part where
  body : Linear.Body
  scope : Option Scope
  start : Nat
  code : List Instruction

variable {p : Part}

namespace Part

/-- The offset is one of the code's. -/
def Contains (p : Part) (pc : Nat) : Prop :=
  p.start ≤ pc ∧ pc < p.start + (encodeAll p.code).length

/-- The machine runs the code of the part, or a call that it made is unfinished. -/
def IsActive (p : Part) (m : Machine) : Prop :=
  ∃ pc ∈ m.offsets, p.Contains pc

end Part

namespace Assembled

variable (a : Assembled code image)

/-- The parts of an assembled program. -/
inductive HasPart : Part → Prop where
  | main {is : List Instruction} : a.main.HasCode is → HasPart ⟨a.tree.body, none, 0, is⟩
  | function {k : Nat} {r : Routine} {d : Draft} {span : Span} {is : List Instruction} :
      a.tree.routines[k]? = some r → a.drafts[k]? = some d → a.layout.spans[k]? = some span →
      d.HasCode is → HasPart ⟨r.body, some ⟨r.name, r.params⟩, span.start, is⟩

/-- What holds a register when all functions have been lowered. -/
def holder (r : Register) : Option Holder := a.between.registers.holder r

/-- The keys that a part mentions. -/
def mentions (p : Part) : List String := p.body.mentions a.table.signatures p.scope

/-- The keys that a part sets. -/
def assigns (p : Part) : List String := p.body.assigns a.table.signatures p.scope

/-- The part is a function to which calls lead from the named one. -/
def IsReached (callee : String) (p : Part) : Prop :=
  a.HasPart p ∧ ∃ scope, p.scope = some scope ∧
    CallReach (a.tree.routines.map Routine.function) callee scope.function

/-- Of the parts that set the register of a name, all but one function set the name. -/
def ScratchOnce : Prop :=
  ∀ (r : Register) (x : String), a.holder r = some (.named x) →
    ∀ p q, a.HasPart p → a.HasPart q → Sets p.code r → Sets q.code r →
      x ∉ a.assigns p → x ∉ a.assigns q → p.scope = q.scope ∧ p.scope ≠ none

end Assembled

/-- What a call of the function leaves to its callers: `m` is the machine before the call, `m'` one
inside the call or just behind it. -/
structure CallerKept {code : List Instr} {image : Image} (a : Assembled code image)
    (callee : String) (m m' : Machine) : Prop where
  /-- A register changes only if a function that is reached sets it. If a name holds the register in
  the end, that function mentions the name. -/
  changed : ∀ r : Register, m'.get r.byte ≠ m.get r.byte → a.holder r ≠ none ∧
    ∃ g, a.IsReached callee g ∧ Sets g.code r ∧
      ∀ x, a.holder r = some (.named x) → x ∈ a.mentions g
  /-- A register that a caller sets, for a temporary, a condition or a variable, changes only for a
  name that the caller and a function that is reached both mention, and one of them sets. -/
  own : ∀ p, a.HasPart p → p.IsActive m → ∀ r : Register, Sets p.code r →
    m'.get r.byte ≠ m.get r.byte → ∃ g x, a.IsReached callee g ∧ a.holder r = some (.named x) ∧
      (x ∈ a.assigns p ∧ x ∈ a.mentions g ∨ x ∈ a.mentions p ∧ x ∈ a.assigns g)
  /-- A parameter of a caller has a register, which changes only if a function that is reached
  passes or sets a variable of the same key. -/
  parameters : ∀ p, a.HasPart p → p.IsActive m → ∀ scope, p.scope = some scope →
    ∀ param ∈ scope.locals, ∃ r : Register,
      a.holder r = some (.named (qualified scope.function param)) ∧
      (m'.get r.byte ≠ m.get r.byte →
        ∃ g, a.IsReached callee g ∧ qualified scope.function param ∈ a.assigns g)

/-! ## The same functions in their code, shapes and turns -/

/-- Filling in changes no target. -/
theorem Assembly.Draft.HasShape.sets_iff (h : d.HasShape s)
    : Sets s.instructions r ↔ Sets (Piece.all d.leaves) r := by
  have htarget : ∀ i : Instruction, ¬i.IsPlain → i.target? = none := by
    intro i hi
    cases i with
    | mov | arith => exact (hi trivial).elim
    | _ => rfl
  have heq := h.filterMap_eq htarget
  simp only [Sets, Piece.all, ← mem_filterMap, heq]

theorem Assembly.Draft.HasShape.of_hasCode (h : d.HasShape s) (his : d.HasCode is) :
    (encodeAll is).length = s.size ∧ ∀ r, Sets is r ↔ Sets (Piece.all d.leaves) r := by
  obtain ⟨t, ht, rfl⟩ := his
  refine ⟨?_, fun r => ht.sets_iff⟩
  rw [Shape.length_encodeAll_instructions, ← ht.size_eq, h.size_eq]

theorem getElem?_addressesFrom (offset : Nat) {rs : List (Function × Shape)} {f : Function}
    (h : rs[k]? = some (f, s)) :
    (addressesFrom offset rs)[k]? = some (f.name, offset + (routinesShape (rs.take k)).size) := by
  induction rs generalizing k offset with
  | nil => simp at h
  | cons r rs ih =>
    obtain ⟨g, t⟩ := r
    cases k with
    | zero =>
      cases h
      rfl
    | succ k =>
      have hret : retShape.size = 1 := rfl
      rw [addressesFrom, List.getElem?_cons_succ, ih _ h, take_succ_cons, routinesShape,
        Shape.size_append, Shape.size_append, hret]
      congr 2
      omega

/-- The shapes of an assembled program and the turns of its functions. -/
structure Tied {code : List Instr} {image : Image} (a : Assembled code image) (l : Linked image)
    (turns : List Turn) : Prop where
  table_eq : l.table = a.table
  functions_eq : l.routines.map Prod.fst = a.tree.routines.map Routine.function
  main : a.main.HasShape (l.main.append (.plain .halt trivial .nil))
  shapes : List.Forall₂ (fun d r => d.HasShape (r.2.append retShape)) a.drafts l.routines
  routines_eq : turns.map Turn.routine = a.tree.routines
  drafts_eq : turns.map Turn.draft = a.drafts
  inTurn : InTurn a.table.signatures turns a.initial.registers a.between.registers
  isAt : ∀ (k : Nat) (t : Turn), turns[k]? = some t → t.IsAt a.table a.tree.routines a.initial k
  frames_eq : a.between.registers.frames = []
  scope_eq : a.between.scope = none

/-- Assembled code has its bodies and their turns tied together. -/
theorem exists_tied {code : List Instr} (a : Assembled code image) :
    ∃ (l : Linked image) (turns : List Turn), Tied a l turns := by
  obtain ⟨l, htable, hfunctions, hmain, hshapes⟩ := a.exists_linked
  obtain ⟨hscope, hframes, -⟩ := bindsAll_bindParameters _ _ _ a.parameters_eq
  obtain ⟨hframes', hscope', turns, hroutines, hdrafts, hturns, hindex⟩ :=
    exists_turns hframes hscope a.drafts_eq
  exact ⟨l, turns, htable, hfunctions, hmain, hshapes, hroutines, hdrafts, hturns, hindex, hframes',
    hscope'⟩

namespace Tied

variable {a : Assembled code image} {l : Linked image}
theorem getElem?_routines (h : Tied a l turns) (ht : turns[k]? = some t) :
    a.tree.routines[k]? = some t.routine := by
  rw [← h.routines_eq, List.getElem?_map, ht]
  rfl

theorem getElem?_drafts (h : Tied a l turns) (ht : turns[k]? = some t) :
    a.drafts[k]? = some t.draft := by
  rw [← h.drafts_eq, List.getElem?_map, ht]
  rfl

/-- The function of a turn, in the code. -/
theorem exists_span (h : Tied a l turns) (ht : turns[k]? = some t) :
    ∃ s span, l.routines[k]? = some (t.routine.function, s) ∧ a.layout.spans[k]? = some span ∧
      t.draft.HasShape (s.append retShape) ∧
      span.start = l.main.size + 1 + (routinesShape (l.routines.take k)).size := by
  have hroutine : (l.routines.map Prod.fst)[k]? = some t.routine.function := by
    rw [h.functions_eq, List.getElem?_map, h.getElem?_routines ht]
    rfl
  rw [List.getElem?_map] at hroutine
  obtain ⟨⟨f, s⟩, hget, rfl⟩ := Option.map_eq_some_iff.1 hroutine
  have hstart := getElem?_addressesFrom (l.main.size + 1) hget
  rw [← l.addresses_eq, h.table_eq, a.starts_eq, List.getElem?_zip_eq_some] at hstart
  have hstart := hstart.2
  rw [List.getElem?_map] at hstart
  obtain ⟨span, hspan, hbase⟩ := Option.map_eq_some_iff.1 hstart
  refine ⟨s, span, hget, hspan, ?_, hbase⟩
  have hmem : (t.draft, t.routine.function, s) ∈ a.drafts.zip l.routines :=
    mem_of_getElem? (List.getElem?_zip_eq_some.2 ⟨h.getElem?_drafts ht, hget⟩)
  exact (forall₂_iff_zip.1 h.shapes).2 hmem

theorem exists_owner (h : Tied a l turns) (ht : turns[k]? = some t) :
    ∃ s span, l.routines[k]? = some (t.routine.function, s) ∧ a.layout.spans[k]? = some span ∧
      t.draft.HasShape (s.append retShape) ∧
      l.Owner (some t.routine.function) span.start s := by
  obtain ⟨s, span, hget, hspan, hshape, hbase⟩ := h.exists_span ht
  exact ⟨s, span, hget, hspan, hshape, hbase ▸ .routine hget⟩

/-- There are as many turns as functions in the code. -/
theorem exists_turn (h : Tied a l turns) {entry : Function × Shape}
    (hget : l.routines[k]? = some entry) : ∃ t, turns[k]? = some t := by
  have hlengths := congrArg List.length h.functions_eq
  rw [← h.routines_eq, length_map, length_map, length_map] at hlengths
  have hlength : k < turns.length := hlengths ▸ (List.getElem?_eq_some_iff.1 hget).1
  exact ⟨_, List.getElem?_eq_getElem hlength⟩

end Tied

/-- The part is the function of the turn. -/
structure Part.IsOf {image : Image} (l : Linked image) (p : Part) (t : Turn) : Prop where
  scope_eq : p.scope = t.scope
  body_eq : p.body = t.routine.body
  sets_iff : ∀ r, Sets p.code r ↔ Sets t.code r
  owner : ∃ s, l.Owner (some t.routine.function) p.start s ∧
    (encodeAll p.code).length = s.size + 1

namespace Tied

variable {a : Assembled code image} {l : Linked image}
theorem mentions_eq (hp : p.IsOf l t) : a.mentions p = t.mentions a.table.signatures := by
  rw [Assembled.mentions, hp.scope_eq, hp.body_eq]
  rfl

theorem assigns_eq (hp : p.IsOf l t) : a.assigns p = t.assigns a.table.signatures := by
  rw [Assembled.assigns, hp.scope_eq, hp.body_eq]
  rfl

/-- The code of a turn's function, in whichever form, makes a part. -/
theorem isOf_of_hasCode (h : Tied a l turns) (ht : turns[k]? = some t) {span : Span}
    (hspan : a.layout.spans[k]? = some span) (his : t.draft.HasCode is) :
    Part.IsOf l ⟨t.routine.body, t.scope, span.start, is⟩ t := by
  obtain ⟨s, span', -, hspan', hshape, howner⟩ := h.exists_owner ht
  rw [hspan] at hspan'
  cases hspan'
  obtain ⟨hlength, hsets⟩ := hshape.of_hasCode his
  refine ⟨rfl, rfl, hsets, s, howner, ?_⟩
  rw [hlength, Shape.size_append]
  rfl

theorem exists_part (h : Tied a l turns) (ht : t ∈ turns) : ∃ p, a.HasPart p ∧ p.IsOf l t := by
  obtain ⟨k, hk⟩ := mem_iff_getElem?.1 ht
  obtain ⟨s, span, -, hspan, hshape, -⟩ := h.exists_owner hk
  have hcode : t.draft.HasCode (s.append retShape).instructions := ⟨_, hshape, rfl⟩
  exact ⟨_, .function (h.getElem?_routines hk) (h.getElem?_drafts hk) hspan hcode,
    h.isOf_of_hasCode hk hspan hcode⟩

/-- A part is the top-level code, or it is a function that has had its turn. -/
theorem part_cases (h : Tied a l turns) (hp : a.HasPart p) :
    p.scope = none ∧ p.body = a.tree.body ∧
        (∀ r, Sets p.code r ↔ Sets (Piece.all a.main.leaves) r) ∨
      ∃ t ∈ turns, p.IsOf l t := by
  cases hp with
  | main his => exact .inl ⟨rfl, rfl, (h.main.of_hasCode his).2⟩
  | @function k r d span is hroutine hdraft hspan his =>
    rw [← h.routines_eq, List.getElem?_map] at hroutine
    obtain ⟨t, ht, rfl⟩ := Option.map_eq_some_iff.1 hroutine
    rw [h.getElem?_drafts ht] at hdraft
    cases hdraft
    exact .inr ⟨t, mem_of_getElem? ht, h.isOf_of_hasCode ht hspan his⟩

/-- The code of a function that sets a register, as a turn. -/
theorem exists_turn_of_owner (h : Tied a l turns) (howner : l.Owner (some g) base body)
    (hsets : Sets body.instructions r) : ∃ u ∈ turns, u.routine.function = g ∧ Sets u.code r := by
  cases howner with
  | routine hget =>
    obtain ⟨t, hturn⟩ := h.exists_turn hget
    obtain ⟨s, span, hget', -, hshape, -⟩ := h.exists_owner hturn
    rw [hget] at hget'
    cases hget'
    refine ⟨t, mem_of_getElem? hturn, rfl, hshape.sets_iff.1 ?_⟩
    rw [Shape.instructions_append]
    exact sets_append.2 (.inl hsets)

/-- The top-level code sets a register left for a name only to set the name. -/
theorem assigns_of_main (h : Tied a l turns) (hscope : p.scope = none)
    (hbody : p.body = a.tree.body) (hmain : ∀ r, Sets p.code r ↔ Sets (Piece.all a.main.leaves) r)
    (hsets : Sets p.code r) (hheld : a.holder r ≠ none) :
    ∃ x ∈ a.assigns p, a.holder r = some (.named x) := by
  rw [Assembled.assigns, hbody, hscope]
  exact (sets_mainDraft h.scope_eq a.main_eq ((hmain r).1 hsets)).resolve_left hheld

/-- **A part and another function share a register only for a name that one of them sets.** -/
theorem exists_shared (h : Tied a l turns) (hp : a.HasPart p) (hsets : Sets p.code r)
    (hu : u ∈ turns) (hset : Sets u.code r) (hne : ∀ t, p.IsOf l t → t ≠ u) :
    ∃ x, a.holder r = some (.named x) ∧
      (x ∈ a.assigns p ∧ x ∈ u.mentions a.table.signatures ∨
        x ∈ a.mentions p ∧ x ∈ u.assigns a.table.signatures) := by
  rcases h.part_cases hp with ⟨hscope, hbody, hmain⟩ | ⟨t, ht, hof⟩
  · -- the top-level code comes last, when what functions took is held
    obtain ⟨hheld, hnames⟩ := h.inTurn.mentions_of_sets hu hset
    obtain ⟨x, hx, hname⟩ := h.assigns_of_main hscope hbody hmain hsets hheld
    exact ⟨x, hname, .inl ⟨hx, hnames x hname⟩⟩
  · rw [mentions_eq hof, assigns_eq hof]
    exact h.inTurn.exists_shared ht hu (hne t hof) ((hof.sets_iff r).1 hsets) hset

/-- Assembled code has that property, whatever its functions share. -/
theorem scratchOnce (h : Tied a l turns) : a.ScratchOnce := by
  intro r x hx p q hp hq hpr hqr hxp hxq
  -- Not the top-level code, which sets such a register for its name only.
  have hfunction {p : Part} (hp : a.HasPart p) (hpr : Sets p.code r) (hxp : x ∉ a.assigns p) :
      ∃ t ∈ turns, p.IsOf l t := by
    refine (h.part_cases hp).resolve_left ?_
    rintro ⟨hscope, hbody, hmain⟩
    obtain ⟨y, hy, hname⟩ := h.assigns_of_main hscope hbody hmain hpr (by simp [hx])
    rw [hx] at hname
    cases hname
    exact hxp hy
  obtain ⟨t, -, hpof⟩ := hfunction hp hpr hxp
  obtain ⟨u, hu, hqof⟩ := hfunction hq hqr hxq
  refine ⟨?_, by simp [hpof.scope_eq, Turn.scope]⟩
  by_contra hne
  obtain ⟨y, hy, hshared⟩ := h.exists_shared hp hpr hu ((hqof.sets_iff r).1 hqr)
    fun t ht heq => hne ((ht.scope_eq.trans (heq ▸ rfl)).trans hqof.scope_eq.symm)
  rw [hx] at hy
  cases hy
  rw [← assigns_eq hqof] at hshared
  rcases hshared with ⟨hxp', -⟩ | ⟨-, hxq'⟩
  · exact hxp hxp'
  · exact hxq hxq'

/-! ## Callers and callees -/

section Callers

variable {level : String → Nat} {m m' : Machine} {whos : List (Option Function)} {callee : String}

/-- What changed is set by a function that is reached. -/
theorem exists_reached (h : Tied a l turns)
    (hreach : CallReach (l.routines.map Prod.fst) callee g.name)
    (howner : l.Owner (some g) base body) (hsets : Sets body.instructions r) :
    ∃ u ∈ turns, CallReach (l.routines.map Prod.fst) callee u.routine.name ∧ Sets u.code r ∧
      ∃ p, a.IsReached callee p ∧ p.IsOf l u := by
  obtain ⟨u, hu, rfl, hsets⟩ := h.exists_turn_of_owner howner hsets
  obtain ⟨p, hp, hof⟩ := h.exists_part hu
  refine ⟨u, hu, hreach, hsets, p, ⟨hp, _, hof.scope_eq, ?_⟩, hof⟩
  rwa [← h.functions_eq]

/-- The stack rises to lower levels and calls lead to higher ones, so they do not meet. -/
theorem ne_of_isActive (h : Tied a l turns) (hlevels : l.Levels level) (hplaced : l.Placed m whos)
    (hlt : ∀ w ∈ whos, Linked.levelOf level w < level callee) (hactive : p.IsActive m)
    (hof : p.IsOf l t) (hu : u ∈ turns)
    (hreach : CallReach (l.routines.map Prod.fst) callee u.routine.name) : t ≠ u := by
  -- Were they the same, the function would be both below the level of the callee and above it.
  rintro rfl
  obtain ⟨s, howner, hlength⟩ := hof.owner
  obtain ⟨pc, hpc, hstart, hstop⟩ := hactive
  obtain ⟨w, hw, base, body, hwowner, hbounds⟩ := hplaced.exists_holds hpc
  obtain ⟨rfl, -, -⟩ := howner.unique hwowner (show p.start ≤ pc ∧ pc ≤ p.start + s.size by omega)
    hbounds
  have hcaller : level t.routine.name < level callee := hlt _ hw
  have hfound : (find? (l.routines.map Prod.fst) t.routine.name).isSome := by
    rw [h.functions_eq, ← h.routines_eq]
    refine List.find?_isSome.2 ⟨t.routine.function, ?_, beq_self_eq_true _⟩
    exact mem_map_of_mem (mem_map_of_mem hu)
  have hcallee := Linked.level_le_of_reaches hlevels hreach hfound
  omega

theorem exists_parameter (h : Tied a l turns) (ht : t ∈ turns) {param : String}
    (hparam : param ∈ t.routine.params) :
    ∃ r, a.initial.registers.holder r = some (.named (qualified t.routine.name param)) := by
  refine (bindsAll_bindParameters _ _ _ a.parameters_eq).2.2.2.2 _
    (mem_append_left _ (mem_flatMap.2 ?_))
  refine ⟨t.routine.function, ?_, mem_map_of_mem hparam⟩
  rw [← h.routines_eq]
  exact mem_map_of_mem (mem_map_of_mem ht)

/-- **What a call leaves to its callers**, if only functions that it reaches run. -/
theorem callerKept (h : Tied a l turns) (hlevels : l.Levels level) (hplaced : l.Placed m whos)
    (hlt : ∀ w ∈ whos, Linked.levelOf level w < level callee)
    (hchanged : ∀ r : Register, m'.get r.byte ≠ m.get r.byte →
      ∃ (g : Function) (base : Nat) (body : Shape),
        CallReach (l.routines.map Prod.fst) callee g.name ∧ l.Owner (some g) base body ∧
          Sets body.instructions r) : CallerKept a callee m m' := by
  have hreached (r : Register) (hr : m'.get r.byte ≠ m.get r.byte) :
      ∃ u ∈ turns, CallReach (l.routines.map Prod.fst) callee u.routine.name ∧ Sets u.code r ∧
        ∃ p, a.IsReached callee p ∧ p.IsOf l u := by
    obtain ⟨g, base, body, hreach, howner, hset⟩ := hchanged r hr
    exact h.exists_reached hreach howner hset
  refine ⟨fun r hr => ?_, fun p hp hactive r hsets hr => ?_,
    fun p hp hactive scope hscope param hparam => ?_⟩
  · obtain ⟨u, hu, -, hset, g, hg, hof⟩ := hreached r hr
    obtain ⟨hheld, hnames⟩ := h.inTurn.mentions_of_sets hu hset
    exact ⟨hheld, g, hg, (hof.sets_iff r).2 hset, fun x hx => mentions_eq hof ▸ hnames x hx⟩
  · obtain ⟨u, hu, hreach, hset, g, hg, hof⟩ := hreached r hr
    obtain ⟨x, hx, hshared⟩ := h.exists_shared hp hsets hu hset fun t ht =>
      h.ne_of_isActive hlevels hplaced hlt hactive ht hu hreach
    rw [← mentions_eq hof, ← assigns_eq hof] at hshared
    exact ⟨g, x, hg, hx, hshared⟩
  · rcases h.part_cases hp with ⟨hmain, -⟩ | ⟨t, ht, hpof⟩
    · rw [hmain] at hscope
      cases hscope
    rw [hpof.scope_eq] at hscope
    cases hscope
    -- parameters have their registers before any function is lowered, so none is scratch
    obtain ⟨r, hinitial⟩ := h.exists_parameter ht hparam
    refine ⟨r, h.inTurn.kept hinitial, fun hr => ?_⟩
    obtain ⟨u, hu, -, hset, g, hg, hof⟩ := hreached r hr
    refine ⟨g, hg, ?_⟩
    rw [assigns_eq hof]
    exact h.inTurn.assigns_of_sets hu hset hinitial

end Callers

end Tied

/-- **Calls preserve their callers, up to shared names.** From a call to the matching return the
callers keep what `CallerKept` says, and behind the return the machine is just behind the call with
both stacks as before. A name loses its value without being set only to the one function that
uses its register otherwise. -/
theorem assemble_call_frame {code : List Instr} {image : Image} (h : assemble code = .ok image) :
    ∃ a : Assembled code image, a.ScratchOnce ∧
      ∀ config s addr, Session.Reachable config image.code s →
      s.isActive image.code = true →
      Instruction.decode image.code s.machine.pc = .ok (.call addr) →
      ∃ callee, (callee, addr) ∈ image.symbols.entries ∧
        ∀ t, Session.Within config image.code s t →
          CallerKept a callee s.machine t.machine ∧
          (t.machine.calls.length ≤ s.machine.calls.length →
            t.machine.pc = s.machine.pc + 2 ∧ t.machine.calls = s.machine.calls ∧
              t.machine.loops = s.machine.loops) := by
  obtain ⟨a⟩ := exists_assembled h
  obtain ⟨l, turns, htied⟩ := exists_tied a
  obtain ⟨level, hlevels⟩ := exists_level_of_checkRecursion l.acyclic
  refine ⟨a, htied.scratchOnce, fun config s addr hreachable hactive hdecode => ?_⟩
  obtain ⟨who, rest, hplaced, -⟩ :=
    l.inside_of_running hreachable (Session.isActive_iff.1 hactive).1
  obtain ⟨f, hlookup, hlt, hwithin⟩ := Linked.within_call hlevels hreachable hactive hplaced hdecode
  refine ⟨f.name, ?_, fun t ht => ?_⟩
  · rw [a.symbols_iff, ← htied.table_eq]
    obtain ⟨front, back, heq, -⟩ := lookup_eq_some_iff.1 hlookup
    simp [heq]
  · obtain ⟨hplace, hchanged⟩ := hwithin t ht
    refine ⟨htied.callerKept hlevels hplaced hlt hchanged, fun hle => ?_⟩
    rcases hplace with ⟨inner, -, hcalls, -⟩ | hreturned
    · rw [hcalls, length_append, length_cons] at hle
      omega
    · exact hreturned

/-! ## Two calls -/

/-- The session after so many steps. -/
def sessionAfter (code : Code) (steps : Nat) : Session :=
  (Session.runFor .default code steps .start).1

/-- The session after so many more steps inside the call that is made then. -/
def sessionInside (code : Code) (steps more : Nat) : Session :=
  Session.runWithin .default code (sessionAfter code steps).machine.calls.length more
    ((sessionAfter code steps).step .default code).1

theorem reachable_sessionAfter {code : Code}
    (h : (Session.runFor .default code steps .start).2 = .unfinished) :
    Session.Reachable .default code (sessionAfter code steps) :=
  Session.Reachable.start.runFor (Prod.ext rfl h)

theorem within_sessionInside {code : Code}
    (h : ((sessionAfter code steps).step .default code).2 = .ok ()) (more : Nat) :
    Session.Within .default code (sessionAfter code steps) (sessionInside code steps more) :=
  (Session.Within.enter (Prod.ext rfl h)).runWithin more

/-- In its second round the loop of `countdown` calls its function, at offset 27, and goes on behind
the call inside the loop. -/
theorem assemble_call_frame_countdown : ∃ image, assemble countdown = .ok image ∧
    ∃ (a : Assembled countdown image) (s t : Session) (callee : String), a.ScratchOnce ∧
      Session.Reachable .default image.code s ∧ s.isActive image.code = true ∧
      Instruction.decode image.code s.machine.pc = .ok (.call 46) ∧
      Session.Within .default image.code s t ∧
      t.machine.calls.length ≤ s.machine.calls.length ∧ s.machine.loops = [⟨3, 3⟩] ∧
      CallerKept a callee s.machine t.machine ∧ t.machine.pc = s.machine.pc + 2 ∧
      t.machine.calls = s.machine.calls ∧ t.machine.loops = s.machine.loops := by
  obtain ⟨image, h, hcode⟩ := map_eq_ok.1 code_countdown
  have hrun : (Session.runFor .default image.code 19 .start).2 = .unfinished ∧
      ((sessionAfter image.code 19).step .default image.code).2 = .ok () ∧
      (sessionAfter image.code 19).isActive image.code = true ∧
      Instruction.decode image.code (sessionAfter image.code 19).machine.pc = .ok (.call 46) ∧
      (sessionInside image.code 19 6).machine.calls.length ≤
        (sessionAfter image.code 19).machine.calls.length ∧
      (sessionAfter image.code 19).machine.loops = [⟨3, 3⟩] := by
    rw [hcode]
    decide +kernel
  obtain ⟨hending, hstep, hactive, hdecode, hreturned, hloops⟩ := hrun
  have hreachable := reachable_sessionAfter hending
  have hwithin := within_sessionInside hstep 6
  obtain ⟨a, honce, hframe⟩ := assemble_call_frame h
  obtain ⟨callee, -, hkept⟩ := hframe _ _ _ hreachable hactive hdecode
  obtain ⟨hcaller, hbehind⟩ := hkept _ hwithin
  exact ⟨image, h, a, _, _, callee, honce, hreachable, hactive, hdecode, hwithin, hreturned,
    hloops, hcaller, hbehind hreturned⟩

/-- A function that computes with temporaries and then reads the shared variable `v`. -/
def sharedScratch : List Instr :=
  [.funcDecl "f" ["a"],
    .print (.binary .mul (.binary .add (.var "a") (.int 1)) (.binary .add (.var "a") (.int 2))),
    .ret (.var "v"), .endFunc, .declare "v" (.int 10), .expr (.call "f" [.int 1]),
    .print (.var "v")]

theorem code_sharedScratch : (assemble sharedScratch).map Image.code = .ok
    [0x10, 2, 10, 0x10, 0, 1, 0x30, 11, 0x20, 2, 0xFF, 0x11, 3, 0x80, 1, 0x11, 4, 0x80, 2,
      0x13, 2, 0x83, 0x84, 0x20, 2, 0x11, 1, 0x82, 0, 0x40] :=
  assemble_of_levels (fun _ => 0) (by decide) (by decide +kernel)

/-- **A call can change a variable that no function sets.** The register of `v` is printed behind
the call. It has the value 10 before the call and 6 after the matching return, since the function
computed its product there before it mentioned `v`. -/
theorem sharedScratch_call_changes_variable : ∃ image, assemble sharedScratch = .ok image ∧
    (∀ f ∈ (split sharedScratch).functions, ∀ i ∈ f.body, ∀ e,
      i ≠ .assign "v" e ∧ i ≠ .declare "v" e) ∧
    ∃ s t : Session, Session.Reachable .default image.code s ∧ s.isActive image.code = true ∧
      Instruction.decode image.code s.machine.pc = .ok (.call 11) ∧
      Session.Within .default image.code s t ∧ t.machine.calls = s.machine.calls ∧
      Instruction.decode image.code t.machine.pc = .ok (.out 2) ∧
      s.machine.get 2 = 10 ∧ t.machine.get 2 = 6 := by
  obtain ⟨image, h, hcode⟩ := map_eq_ok.1 code_sharedScratch
  have hfunctions : ∀ f ∈ (split sharedScratch).functions, ∀ i ∈ f.body, ∀ e,
      i ≠ .assign "v" e ∧ i ≠ .declare "v" e := by
    simp [sharedScratch, split, splitStep, Parts.declare, Parts.cons, Parts.empty]
  refine ⟨image, h, hfunctions, sessionAfter image.code 2, sessionInside image.code 2 6,
    reachable_sessionAfter ?_, ?_, ?_, within_sessionInside ?_ 6, ?_, ?_, ?_, ?_⟩ <;>
    rw [hcode] <;> decide +kernel

end ImpMachine
