import ImpMachine.Assembly.Body
import ImpMachine.Proofs.Nested

/-!
# Lowering a tree

Lowering goes over linear code once, and keeps a stack of open constructs and a table of blocks
whose ends it learns later. On a tree the same work falls into two parts: a draft is made, which
has the pieces of code in their constructs and fixes every register, and the draft is written.
The two ways agree, failures included (`lowerFrom_flatten`).
-/

open List

namespace ImpMachine.Assembly

open Linear

/-! ## Drafts -/

/-- Code in its constructs. A construct has the register that it tests. -/
inductive Draft where
  | nil
  | code (pieces : List Piece) (rest : Draft)
  | conditional (test : Register) (body rest : Draft)
  | choice (test : Register) (body other rest : Draft)
  | loop (test : Register) (body rest : Draft)

/-- Writes pieces of code in order. -/
def writePieces (pieces : List Piece) (buffer : Buffer) : Buffer :=
  pieces.foldl (fun buffer piece => piece.write buffer) buffer

namespace Draft

/-- One draft behind the other. -/
def append : Draft → Draft → Draft
  | .nil, d => d
  | .code pieces rest, d => .code pieces (rest.append d)
  | .conditional test body rest, d => .conditional test body (rest.append d)
  | .choice test body other rest, d => .choice test body other (rest.append d)
  | .loop test body rest, d => .loop test body (rest.append d)

/-- Writes a draft. The end of a block is entered when it is reached. -/
def write : Draft → Buffer → Buffer
  | .nil, buffer => buffer
  | .code pieces rest, buffer => rest.write (writePieces pieces buffer)
  | .conditional test body rest, buffer =>
    let block := buffer.nextBlock
    let inner := body.write
      (writePieces [⟨.ifZero test.byte 0, some (.ifSkip block)⟩] buffer.openBlock)
    rest.write (writePieces [⟨.endIf, none⟩] (inner.closeBlock block inner.cursor))
  | .choice test body other rest, buffer =>
    let block := buffer.nextBlock
    let inner := body.write
      (writePieces [⟨.ifZero test.byte 0, some (.ifSkip block)⟩] buffer.openBlock)
    let divided := (writePieces [⟨.jump 0, some (.elseSkip block)⟩] inner).markElseBody block
    let outer := other.write divided
    rest.write (writePieces [⟨.endIf, none⟩] (outer.closeBlock block outer.cursor))
  | .loop test body rest, buffer =>
    let block := buffer.nextBlock
    let inner := body.write
      (writePieces [⟨.whileLoop test.byte 0, some (.whileSkip block)⟩] buffer.openBlock)
    let outer := writePieces [⟨.endWhile, none⟩] inner
    rest.write (outer.closeBlock block outer.cursor)

theorem append_assoc (d e f : Draft) : (d.append e).append f = d.append (e.append f) := by
  induction d with
  | nil => rfl
  | code pieces rest ih => simp [append, ih]
  | conditional test body rest _ ih => simp [append, ih]
  | choice test body other rest _ _ ih => simp [append, ih]
  | loop test body rest _ ih => simp [append, ih]

theorem write_append (d e : Draft) (buffer : Buffer) :
    (d.append e).write buffer = e.write (d.write buffer) := by
  induction d generalizing buffer with
  | nil => rfl
  | code pieces rest ih => exact ih _
  | conditional test body rest _ ih => exact ih _
  | choice test body other rest _ _ ih => exact ih _
  | loop test body rest _ ih => exact ih _

end Draft

/-! ## Making drafts -/

/-- What decides the registers of the code that comes next. -/
structure Bindings where
  registers : RegisterMap
  scope : Option Scope

/-- A step of drafting. -/
abbrev Drafting := StateT Bindings (Except AssembleError)

/-- Makes a request to the register map. -/
def request {α : Type} (r : Allocation α) : Drafting α := fun b =>
  (r b.registers).map fun (a, registers) => (a, { b with registers })

/-- A request changes the register map alone. -/
theorem request_eq_ok {α : Type} {x : Allocation α} {b b' : Bindings} {a : α}
    (h : request x b = .ok (a, b')) :
    ∃ m, x b.registers = .ok (a, m) ∧ b' = { b with registers := m } := by
  unfold request at h
  cases hx : x b.registers with
  | error e =>
    rw [hx] at h
    cases h
  | ok r =>
    rw [hx] at h
    cases h
    exact ⟨_, rfl, rfl⟩

/-- Changes the register map. -/
def change (f : RegisterMap → RegisterMap) : Drafting Unit := fun b =>
  .ok ((), { b with registers := f b.registers })

/-- What operands are lowered in at this point. -/
def environmentOf (table : FunctionTable) : Drafting Environment := fun b =>
  .ok (⟨table, b.scope⟩, b)

/-- Makes a name the function's own from here on. -/
def own (name : String) : Drafting Unit := fun b =>
  .ok ((), { b with
    scope := b.scope.map fun scope => { scope with locals := name :: scope.locals } })

/-- The code of an assignment. -/
def draftAssign (table : FunctionTable) (name : String) (value : Operand) :
    Drafting (List Piece) := do
  let env ← environmentOf table
  let binding ← request (RegisterMap.bind (env.key name))
  request (load env value binding.register)

/-- The code of a test, and the register to be tested right after it. -/
def draftTest (table : FunctionTable) (cond : Operand) : Drafting (List Piece × Register) := do
  let env ← environmentOf table
  let fetched ← request (fetchRegister env cond (load env cond))
  request (release fetched.temporaries)
  return (fetched.code, fetched.place)

/-- The code of a plain instruction. Marks have no code of their own. -/
def draftPlain (table : FunctionTable) (i : Instr) : Drafting (List Piece) := do
  match i with
  | .declare name value =>
    own name
    draftAssign table name value
  | .assign name value => draftAssign table name value
  | .print value =>
    let (pieces, r) ← draftTest table value
    return pieces ++ [⟨.out r.byte, none⟩]
  | .call callee args | .expr (.call callee args) =>
    let env ← environmentOf table
    request (callCode env callee (loads env args))
  | .expr value =>
    let env ← environmentOf table
    let fetched ← request (viaTemporary (load env value))
    request (release fetched.temporaries)
    return fetched.code
  | .ret value =>
    let env ← environmentOf table
    let binding ← request (RegisterMap.bindGlobal returnName)
    let pieces ← request (load env value binding.register)
    return pieces ++ [⟨.ret, none⟩]
  | _ => return []

/-- The test of a loop, and the code that computes it for the first time. -/
def draftLoopTest (table : FunctionTable) (cond : Operand) : Drafting (List Piece × LoopTest) := do
  let env ← environmentOf table
  match cond with
  | .var name =>
    let (r, pieces) ← request (readVariable env name)
    return (pieces, .variable r)
  | _ =>
    let fetched ← request (viaTemporary (load env cond))
    return (fetched.code, .computed fetched.place cond)

/-- The code that computes a loop's test again. -/
def draftRepeat (table : FunctionTable) : LoopTest → Drafting (List Piece)
  | .variable _ => return []
  | .computed r cond => do
    let env ← environmentOf table
    request (load env cond r)

/-- Gives the register of a loop's test back. -/
def draftEndTest : LoopTest → Drafting Unit
  | .variable _ => return
  | .computed r _ => request (release [r])

end ImpMachine.Assembly

namespace ImpMachine.Linear.Body

open Assembly

/-- The draft of a tree. -/
def draft (table : FunctionTable) : Body → Drafting Draft
  | .nil => return .nil
  | .plain i _ rest => do
    let pieces ← draftPlain table i
    return .code pieces (← rest.draft table)
  | .conditional cond body rest => do
    let (pieces, test) ← draftTest table cond
    let inner ← body.draft table
    return .code pieces (.conditional test inner (← rest.draft table))
  | .choice cond body other rest => do
    let (pieces, test) ← draftTest table cond
    let inner ← body.draft table
    let outer ← other.draft table
    return .code pieces (.choice test inner outer (← rest.draft table))
  | .loop cond body rest => do
    let (pieces, test) ← draftLoopTest table cond
    let inner ← body.draft table
    let again ← draftRepeat table test
    draftEndTest test
    return .code pieces
      (.loop test.register (inner.append (.code again .nil)) (← rest.draft table))
  | .block body rest => do
    change RegisterMap.pushScope
    let inner ← body.draft table
    change RegisterMap.popScope
    return inner.append (← rest.draft table)

end ImpMachine.Linear.Body

namespace ImpMachine.Assembly

open Linear

/-! ## Lowering is writing the draft -/

/-- The state of lowering: the code, what decides registers, and the open constructs. -/
def Progress.of (buffer : Buffer) (b : Bindings) (constructs : List OpenConstruct) : Progress :=
  ⟨buffer, b.registers, b.scope, constructs⟩

section Steps

variable {σ α β : Type} (buffer : Buffer) (b : Bindings) (cs : List OpenConstruct)

theorem bind_apply (x : StateT σ (Except AssembleError) α)
    (f : α → StateT σ (Except AssembleError) β) (t : σ) :
    (x >>= f) t = (x t).bind fun r => f r.1 r.2 := rfl

/-- A sequence succeeds when both of its parts do. -/
theorem run_bind_eq_ok {x : StateT σ (Except AssembleError) α}
    {f : α → StateT σ (Except AssembleError) β} {t : σ} {r : β × σ} :
    (x >>= f) t = .ok r ↔ ∃ a t', x t = .ok (a, t') ∧ f a t' = .ok r := by
  rw [bind_apply]
  cases x t with
  | error e => simp [Except.bind]
  | ok p =>
    obtain ⟨a, t'⟩ := p
    constructor
    · intro h
      exact ⟨a, t', rfl, h⟩
    · rintro ⟨_, _, ⟨⟩, h⟩
      exact h

theorem pure_apply (a : α) (t : σ) :
    (pure a : StateT σ (Except AssembleError) α) t = .ok (a, t) := rfl

theorem modify_apply (f : Progress → Progress) (s : Progress) :
    (modify f : Lowering Unit) s = .ok ((), f s) := rfl

theorem environment_apply (table : FunctionTable) :
    environment table (.of buffer b cs) = .ok (⟨table, b.scope⟩, .of buffer b cs) := rfl

theorem environmentOf_apply (table : FunctionTable) :
    environmentOf table b = .ok (⟨table, b.scope⟩, b) := rfl

/-- In lowering, a request leaves code and constructs alone. -/
theorem allocate_apply (r : Allocation α) :
    allocate r (.of buffer b cs) = (request r b).map fun p => (p.1, .of buffer p.2 cs) := by
  simp only [allocate, request, Progress.of]
  rcases r b.registers with e | ⟨a, m⟩ <;> rfl

theorem request_release (registers : List Register) :
    request (release registers) b =
      .ok ((), { b with registers := b.registers.releaseAll (registers.map Fin.val) }) := rfl

theorem onBuffer_apply (f : Buffer → Buffer) :
    onBuffer f (.of buffer b cs) = .ok ((), .of (f buffer) b cs) := rfl

theorem writePieces_append (p q : List Piece) :
    writePieces (p ++ q) buffer = writePieces q (writePieces p buffer) :=
  foldl_append

end Steps

/-- A step of lowering writes the code that a draft has. -/
def Writes (step : Lowering Unit) (drafted : Drafting (List Piece)) : Prop :=
  ∀ buffer b cs, step (.of buffer b cs) =
    (drafted b).map fun r => ((), .of (writePieces r.1 buffer) r.2 cs)

variable (table : FunctionTable)

theorem writes_assign (name : String) (value : Operand) :
    Writes (assign table name value) (draftAssign table name value) := by
  intro buffer b cs
  simp only [assign, draftAssign, bind_apply, environment_apply, environmentOf_apply,
    allocate_apply, Except.bind, Except.map]
  rcases request (RegisterMap.bind _) b with e | ⟨binding, b⟩
  · rfl
  · dsimp only
    simp only [allocate_apply, Except.map]
    rcases request (load _ _ _) b with e | ⟨pieces, b⟩ <;> rfl

theorem writes_call (callee : String) (args : List Operand) :
    Writes (callFunction table callee args)
      (do let env ← environmentOf table; request (callCode env callee (loads env args))) := by
  intro buffer b cs
  simp only [callFunction, bind_apply, environment_apply, environmentOf_apply, allocate_apply,
    Except.bind, Except.map]
  rcases request (callCode _ _ _) b with e | ⟨pieces, b⟩ <;> rfl

/-- A plain instruction writes its code. -/
theorem writes_plain (index : Nat) {i : Instr} (hi : i.IsPlain) :
    Writes (lowerInstr table index i) (draftPlain table i) := by
  cases i with
  | declare name value =>
    intro buffer b cs
    exact writes_assign table name value buffer
      ⟨b.registers, b.scope.map fun scope => { scope with locals := name :: scope.locals }⟩ cs
  | assign name value => exact writes_assign table name value
  | print value =>
    intro buffer b cs
    simp only [lowerInstr, draftPlain, withRegister, draftTest, bind_apply, environment_apply,
      environmentOf_apply, allocate_apply, Except.bind, Except.map]
    rcases request (fetchRegister _ _ _) b with e | ⟨fetched, b⟩
    · rfl
    · simp only [request_release, pure_apply, writePieces_append]
      rfl
  | call callee args => exact writes_call table callee args
  | expr value =>
    cases value with
    | call callee args => exact writes_call table callee args
    | _ =>
      intro buffer b cs
      simp only [lowerInstr, draftPlain, bind_apply, environment_apply, environmentOf_apply,
        allocate_apply, Except.bind, Except.map]
      rcases request (viaTemporary _) b with e | ⟨fetched, b⟩ <;> rfl
  | ret value =>
    intro buffer b cs
    simp only [lowerInstr, draftPlain, bind_apply, environment_apply, environmentOf_apply,
      allocate_apply, Except.bind, Except.map]
    rcases request (RegisterMap.bindGlobal _) b with e | ⟨binding, b⟩
    · rfl
    · dsimp only
      simp only [allocate_apply, Except.map]
      rcases request (load _ _ _) b with e | ⟨pieces, b⟩
      · rfl
      · simp only [pure_apply, writePieces_append]
        rfl
  | funcDecl | ifBegin | whileBegin | blockStart | macroDecl => cases hi.1
  | endFunc | endIf | endWhile | blockEnd | endMacro => cases hi.2.1
  | elseMark => exact absurd rfl hi.2.2

/-! Marks of constructs. Opening one enters it in the stack; the other marks find it on top. -/

section Marks

variable (index block : Nat) (buffer : Buffer) (b : Bindings) (cs : List OpenConstruct)

/-- A conditional writes its test and opens a block. -/
theorem lowerInstr_ifBegin (cond : Operand) :
    lowerInstr table index (.ifBegin cond) (.of buffer b cs) =
      (draftTest table cond b).map fun r =>
        let written := writePieces r.1.1 buffer
        ((), .of (writePieces [⟨.ifZero r.1.2.byte 0, some (.ifSkip written.nextBlock)⟩]
          written.openBlock) r.2 (.conditional written.nextBlock :: cs)) := by
  simp only [lowerInstr, withRegister, draftTest, bind_apply, environment_apply,
    environmentOf_apply, allocate_apply, Except.bind, Except.map]
  rcases request (fetchRegister _ _ _) b with e | ⟨fetched, b⟩ <;> rfl

theorem lowerInstr_elseMark :
    lowerInstr table index .elseMark (.of buffer b (.conditional block :: cs)) =
      .ok ((), .of ((writePieces [⟨.jump 0, some (.elseSkip block)⟩] buffer).markElseBody block) b
        (.conditional block :: cs)) := rfl

theorem lowerInstr_endIf :
    lowerInstr table index .endIf (.of buffer b (.conditional block :: cs)) =
      .ok ((), .of (writePieces [⟨.endIf, none⟩] (buffer.closeBlock block buffer.cursor)) b cs) :=
  rfl

/-- A loop writes its first test and opens a block. -/
theorem lowerInstr_whileBegin (cond : Operand) :
    lowerInstr table index (.whileBegin cond) (.of buffer b cs) =
      (draftLoopTest table cond b).map fun r =>
        let written := writePieces r.1.1 buffer
        ((), .of (writePieces
            [⟨.whileLoop r.1.2.register.byte 0, some (.whileSkip written.nextBlock)⟩]
          written.openBlock) r.2 (.loop written.nextBlock r.1.2 :: cs)) := by
  cases cond with
  | var name =>
    simp only [lowerInstr, beginTest, draftLoopTest, bind_apply, environment_apply,
      environmentOf_apply, allocate_apply, Except.bind, Except.map]
    rcases request (readVariable _ _) b with e | ⟨⟨r, pieces⟩, b⟩ <;> rfl
  | _ =>
    simp only [lowerInstr, beginTest, draftLoopTest, bind_apply, environment_apply,
      environmentOf_apply, allocate_apply, Except.bind, Except.map]
    rcases request (viaTemporary _) b with e | ⟨fetched, b⟩ <;> rfl

/-- The end of a loop computes the test again and closes the block. -/
theorem lowerInstr_endWhile (test : LoopTest) :
    lowerInstr table index .endWhile (.of buffer b (.loop block test :: cs)) =
      (draftRepeat table test b).bind fun r =>
        (draftEndTest test r.2).map fun r' =>
          let written := writePieces [⟨.endWhile, none⟩] (writePieces r.1 buffer)
          ((), .of (written.closeBlock block written.cursor) r'.2 cs) := by
  have hleave : leave (.of buffer b (.loop block test :: cs)) =
      .ok (some (.loop block test), .of buffer b cs) := rfl
  simp only [lowerInstr, bind_apply, hleave, Except.bind]
  rcases test with r | ⟨r, cond⟩
  · rfl
  · simp only [repeatTest, draftRepeat, bind_apply, environment_apply, environmentOf_apply,
      allocate_apply, Except.bind, Except.map]
    rcases request (load _ _ _) b with e | ⟨again, b⟩ <;> rfl

theorem lowerInstr_blockStart :
    lowerInstr table index .blockStart (.of buffer b cs) =
      .ok ((), .of buffer { b with registers := b.registers.pushScope } (.block :: cs)) := rfl

theorem lowerInstr_blockEnd :
    lowerInstr table index .blockEnd (.of buffer b (.block :: cs)) =
      .ok ((), .of buffer { b with registers := b.registers.popScope } cs) := rfl

end Marks

theorem add_length_enclosed {first last : Instr} {body rest : List Instr} (index : Nat) :
    index + (first :: (body ++ last :: rest)).length =
      index + 1 + body.length + 1 + rest.length := by
  simp only [length_cons, length_append]
  omega

/-- **Lowering a tree is writing its draft**, whatever follows the tree. -/
theorem lowerFrom_flatten (body : Body) (index : Nat)
    (after : List Instr) (buffer : Buffer) (b : Bindings) (cs : List OpenConstruct) :
    lowerFrom table index (body.flatten ++ after) (.of buffer b cs) =
      (body.draft table b).bind fun r =>
        lowerFrom table (index + body.flatten.length) after (.of (r.1.write buffer) r.2 cs) := by
  -- in each case both sides fail with the first part that fails, so the parts are taken in order
  induction body generalizing index after buffer b cs with
  | nil => rfl
  | plain i hi rest ih =>
    have hindex : index + (i :: rest.flatten).length = index + 1 + rest.flatten.length := by
      simp only [length_cons]
      omega
    rw [Body.flatten, cons_append, lowerFrom, bind_apply, writes_plain table index hi,
      Body.draft, bind_apply, hindex]
    rcases draftPlain table i b with e | ⟨pieces, b⟩
    · rfl
    · simp only [Except.map, Except.bind, ih, bind_apply]
      rcases rest.draft table b with e | ⟨d, b⟩ <;> rfl
  | conditional cond body rest ihbody ihrest =>
    rw [Body.flatten, cons_append, List.append_assoc, cons_append, lowerFrom, bind_apply,
      lowerInstr_ifBegin, Body.draft, bind_apply, add_length_enclosed]
    rcases draftTest table cond b with e | ⟨⟨pieces, test⟩, b⟩
    · rfl
    simp only [Except.map, Except.bind, ihbody, bind_apply]
    rcases body.draft table b with e | ⟨inner, b⟩
    · rfl
    simp only [lowerFrom, bind_apply, lowerInstr_endIf, Except.bind, ihrest]
    rcases rest.draft table b with e | ⟨d, b⟩ <;> rfl
  | choice cond body other rest ihbody ihother ihrest =>
    have hindex : index + (Instr.ifBegin cond :: (body.flatten ++
          .elseMark :: (other.flatten ++ .endIf :: rest.flatten))).length =
        index + 1 + body.flatten.length + 1 + other.flatten.length + 1 + rest.flatten.length := by
      simp only [length_cons, length_append]
      omega
    rw [Body.flatten, cons_append, List.append_assoc, cons_append, List.append_assoc,
      cons_append, lowerFrom, bind_apply, lowerInstr_ifBegin, Body.draft, bind_apply, hindex]
    rcases draftTest table cond b with e | ⟨⟨pieces, test⟩, b⟩
    · rfl
    simp only [Except.map, Except.bind, ihbody, bind_apply]
    rcases body.draft table b with e | ⟨inner, b⟩
    · rfl
    simp only [lowerFrom, bind_apply, lowerInstr_elseMark, Except.bind, ihother]
    rcases other.draft table b with e | ⟨outer, b⟩
    · rfl
    simp only [lowerInstr_endIf, Except.bind, ihrest]
    rcases rest.draft table b with e | ⟨d, b⟩ <;> rfl
  | loop cond body rest ihbody ihrest =>
    rw [Body.flatten, cons_append, List.append_assoc, cons_append, lowerFrom, bind_apply,
      lowerInstr_whileBegin, Body.draft, bind_apply, add_length_enclosed]
    rcases draftLoopTest table cond b with e | ⟨⟨pieces, test⟩, b⟩
    · rfl
    simp only [Except.map, Except.bind, ihbody, bind_apply]
    rcases body.draft table b with e | ⟨inner, b⟩
    · rfl
    simp only [lowerFrom, bind_apply, lowerInstr_endWhile, Except.bind]
    -- the mark at the end computes the test again and then gives its register back
    rcases draftRepeat table test b with e | ⟨again, b⟩
    · rfl
    simp only [Except.map]
    rcases draftEndTest test b with e | ⟨_, b⟩
    · rfl
    simp only [ihrest, Except.bind]
    rcases rest.draft table b with e | ⟨d, b⟩
    · rfl
    simp only [pure_apply, Draft.write, Draft.write_append]
  | block body rest ihbody ihrest =>
    rw [Body.flatten, cons_append, List.append_assoc, cons_append, lowerFrom, bind_apply,
      lowerInstr_blockStart, Body.draft, bind_apply, add_length_enclosed]
    simp only [change, Except.bind, ihbody, bind_apply]
    rcases body.draft table _ with e | ⟨inner, b⟩
    · rfl
    simp only [lowerFrom, bind_apply, lowerInstr_blockEnd, Except.bind, ihrest]
    rcases rest.draft table _ with e | ⟨d, b⟩
    · rfl
    simp only [pure_apply, Draft.write_append]

/-! ## Results of drafting -/

section Results

variable {table} {b b' : Bindings} {code : List Piece} {e : Operand}

/-- What follows a request starts from the map that it leaves. -/
theorem request_bind_eq_ok {α β : Type} {x : Allocation α} {f : α → Drafting β} {r : β × Bindings}
    (h : (request x >>= f) b = .ok r) :
    ∃ a m, x b.registers = .ok (a, m) ∧ f a { b with registers := m } = .ok r := by
  obtain ⟨a, b₁, ha, h⟩ := run_bind_eq_ok.1 h
  obtain ⟨m, hm, rfl⟩ := request_eq_ok ha
  exact ⟨a, m, hm, h⟩

/-- A request that is made in the environment of the place. -/
theorem environment_request_eq_ok {α : Type} {x : Environment → Allocation α} {a : α}
    (h : (environmentOf table >>= fun env => request (x env)) b = .ok (a, b')) :
    ∃ m, x ⟨table, b.scope⟩ b.registers = .ok (a, m) ∧ b' = { b with registers := m } :=
  request_eq_ok (x := x ⟨table, b.scope⟩) h

/-- An assignment binds its name and loads its value there. -/
theorem draftAssign_eq_ok {name : String} (h : draftAssign table name e b = .ok (code, b')) :
    ∃ binding m m', RegisterMap.bind (Environment.key ⟨table, b.scope⟩ name) b.registers =
        .ok (binding, m) ∧
      load ⟨table, b.scope⟩ e binding.register m = .ok (code, m') ∧
      b' = { b with registers := m' } := by
  obtain ⟨_, _, ⟨⟩, h⟩ := run_bind_eq_ok.1 h
  obtain ⟨binding, m, hm, h⟩ := request_bind_eq_ok h
  obtain ⟨m', hm', rfl⟩ := request_eq_ok h
  exact ⟨binding, m, m', hm, hm', rfl⟩

/-- A test fetches its operand and gives temporaries back. -/
theorem draftTest_eq_ok {test : Register} (h : draftTest table e b = .ok ((code, test), b')) :
    ∃ f m, fetchRegister ⟨table, b.scope⟩ e (load ⟨table, b.scope⟩ e) b.registers = .ok (f, m) ∧
      code = f.code ∧ test = f.place ∧
      b' = { b with registers := m.releaseAll (f.temporaries.map Fin.val) } := by
  obtain ⟨_, _, ⟨⟩, h⟩ := run_bind_eq_ok.1 h
  obtain ⟨f, m, hm, h⟩ := request_bind_eq_ok h
  cases h
  exact ⟨f, m, hm, rfl, rfl, rfl⟩

/-- An expression is loaded into a temporary that is given back. -/
theorem draftExpr_eq_ok (hcall : ∀ callee args, e ≠ .call callee args)
    (h : draftPlain table (.expr e) b = .ok (code, b')) :
    ∃ f m, viaTemporary (load ⟨table, b.scope⟩ e) b.registers = .ok (f, m) ∧ code = f.code ∧
      b' = { b with registers := m.releaseAll (f.temporaries.map Fin.val) } := by
  cases e with
  | call callee args => exact (hcall _ _ rfl).elim
  | _ =>
    obtain ⟨_, _, ⟨⟩, h⟩ := run_bind_eq_ok.1 h
    obtain ⟨f, m, hm, h⟩ := request_bind_eq_ok h
    cases h
    exact ⟨f, m, hm, rfl, rfl⟩

/-- A return loads its value into the register for returned values. -/
theorem draftRet_eq_ok (h : draftPlain table (.ret e) b = .ok (code, b')) :
    ∃ binding m inner m', RegisterMap.bindGlobal returnName b.registers = .ok (binding, m) ∧
      load ⟨table, b.scope⟩ e binding.register m = .ok (inner, m') ∧
      code = inner ++ plain [.ret] ∧ b' = { b with registers := m' } := by
  obtain ⟨_, _, ⟨⟩, h⟩ := run_bind_eq_ok.1 h
  obtain ⟨binding, m, hm, h⟩ := request_bind_eq_ok h
  obtain ⟨inner, m', hm', h⟩ := request_bind_eq_ok h
  cases h
  exact ⟨binding, m, inner, m', hm, hm', rfl, rfl⟩

end Results

end ImpMachine.Assembly

namespace ImpMachine.Linear.Body

open Assembly

variable {table : FunctionTable} {b b' : Bindings} {d : Draft} {cond : Operand}
variable {body other rest : Body}

/-- The draft of a plain instruction and what follows. -/
theorem draft_plain_eq_ok {i : Instr} {hi : i.IsPlain}
    (h : (Body.plain i hi rest).draft table b = .ok (d, b')) :
    ∃ pieces b₁ e, draftPlain table i b = .ok (pieces, b₁) ∧ rest.draft table b₁ = .ok (e, b') ∧
      d = .code pieces e := by
  obtain ⟨pieces, b₁, hpieces, h⟩ := run_bind_eq_ok.1 h
  obtain ⟨e, b₂, he, h⟩ := run_bind_eq_ok.1 h
  cases h
  exact ⟨pieces, b₁, e, hpieces, he, rfl⟩

/-- The draft of a conditional: test, body, rest. -/
theorem draft_conditional_eq_ok
    (h : (Body.conditional cond body rest).draft table b = .ok (d, b')) :
    ∃ pieces test b₁ inner b₂ e, draftTest table cond b = .ok ((pieces, test), b₁) ∧
      body.draft table b₁ = .ok (inner, b₂) ∧ rest.draft table b₂ = .ok (e, b') ∧
      d = .code pieces (.conditional test inner e) := by
  obtain ⟨⟨pieces, test⟩, b₁, htest, h⟩ := run_bind_eq_ok.1 h
  obtain ⟨inner, b₂, hinner, h⟩ := run_bind_eq_ok.1 h
  obtain ⟨e, b₃, he, h⟩ := run_bind_eq_ok.1 h
  cases h
  exact ⟨pieces, test, b₁, inner, b₂, e, htest, hinner, he, rfl⟩

/-- The draft of a conditional with two branches. -/
theorem draft_choice_eq_ok (h : (Body.choice cond body other rest).draft table b = .ok (d, b')) :
    ∃ pieces test b₁ inner b₂ outer b₃ e, draftTest table cond b = .ok ((pieces, test), b₁) ∧
      body.draft table b₁ = .ok (inner, b₂) ∧ other.draft table b₂ = .ok (outer, b₃) ∧
      rest.draft table b₃ = .ok (e, b') ∧ d = .code pieces (.choice test inner outer e) := by
  obtain ⟨⟨pieces, test⟩, b₁, htest, h⟩ := run_bind_eq_ok.1 h
  obtain ⟨inner, b₂, hinner, h⟩ := run_bind_eq_ok.1 h
  obtain ⟨outer, b₃, houter, h⟩ := run_bind_eq_ok.1 h
  obtain ⟨e, b₄, he, h⟩ := run_bind_eq_ok.1 h
  cases h
  exact ⟨pieces, test, b₁, inner, b₂, outer, b₃, e, htest, hinner, houter, he, rfl⟩

/-- The draft of a loop, with its test made twice. -/
theorem draft_loop_eq_ok (h : (Body.loop cond body rest).draft table b = .ok (d, b')) :
    ∃ pieces test b₁ inner b₂ again b₃ b₄ e,
      draftLoopTest table cond b = .ok ((pieces, test), b₁) ∧
      body.draft table b₁ = .ok (inner, b₂) ∧ draftRepeat table test b₂ = .ok (again, b₃) ∧
      draftEndTest test b₃ = .ok ((), b₄) ∧ rest.draft table b₄ = .ok (e, b') ∧
      d = .code pieces (.loop test.register (inner.append (.code again .nil)) e) := by
  obtain ⟨⟨pieces, test⟩, b₁, htest, h⟩ := run_bind_eq_ok.1 h
  obtain ⟨inner, b₂, hinner, h⟩ := run_bind_eq_ok.1 h
  obtain ⟨again, b₃, hagain, h⟩ := run_bind_eq_ok.1 h
  obtain ⟨⟨⟩, b₄, hend, h⟩ := run_bind_eq_ok.1 h
  obtain ⟨e, b₅, he, h⟩ := run_bind_eq_ok.1 h
  cases h
  exact ⟨pieces, test, b₁, inner, b₂, again, b₃, b₄, e, htest, hinner, hagain, hend, he, rfl⟩

/-- The draft of a block, which opens and closes a scope. -/
theorem draft_block_eq_ok (h : (Body.block body rest).draft table b = .ok (d, b')) :
    ∃ inner b₁ e, body.draft table { b with registers := b.registers.pushScope } = .ok (inner, b₁) ∧
      rest.draft table { b₁ with registers := b₁.registers.popScope } = .ok (e, b') ∧
      d = inner.append e := by
  obtain ⟨_, _, ⟨⟩, h⟩ := run_bind_eq_ok.1 h
  obtain ⟨inner, b₁, hinner, h⟩ := run_bind_eq_ok.1 h
  obtain ⟨_, _, ⟨⟩, h⟩ := run_bind_eq_ok.1 h
  obtain ⟨e, b₂, he, h⟩ := run_bind_eq_ok.1 h
  cases h
  exact ⟨inner, b₁, e, hinner, he, rfl⟩

end ImpMachine.Linear.Body
