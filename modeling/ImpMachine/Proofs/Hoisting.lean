import ImpMachine.Linear.Generate
import ImpMachine.Proofs.Evaluation

/-!
# The linear code of a tree

The code of a program without functions does what the tree does, under every bound on the rounds of
its loops (`carries_ofStmts`).

Taking an assignment out of an expression moves it before everything that the expression reads. That
is harmless where no other part of the expression mentions the variable: an operand that is evaluated
after the assignments to its right reads the same words as before them (`AssignsApart`). Folding
keeps the value of every operand of words, so the second folding pass changes nothing either.
-/

open List

namespace ImpMachine

open Linear

/-! ## Folding -/

namespace Number

/-- Folding two words is the machine's arithmetic. -/
theorem applyWords_eq (op : BinaryOp) (a b : Int64) : applyWords op a b = .int (op.eval a b) := by
  cases op <;> simp [applyWords, BinaryOp.eval, ofBool, truth, bne]

end Number

namespace Operand

variable {lhs rhs operand : Operand}

/-- An operator is folded exactly when both sides are constants. -/
theorem mkBinary_cases (op : BinaryOp) (lhs rhs : Operand) :
    (∃ a b, lhs = .number a ∧ rhs = .number b ∧ mkBinary op lhs rhs = .number (a.apply op b)) ∨
      (lhs.number? = none ∨ rhs.number? = none) ∧ mkBinary op lhs rhs = .binary op lhs rhs := by
  unfold mkBinary
  split
  · exact .inl ⟨_, _, rfl, rfl, rfl⟩
  · rename_i hne
    refine .inr ⟨?_, rfl⟩
    cases lhs with
    | number a =>
      cases rhs with
      | number b => exact (hne a b rfl rfl).elim
      | _ => exact .inr rfl
    | _ => exact .inl rfl

/-- Only the negation of a constant is folded. -/
theorem mkUnary_cases (op : UnaryOp) (operand : Operand) :
    (∃ n, op = .neg ∧ operand = .number n ∧ mkUnary op operand = .number n.negate) ∨
      (op = .neg → operand.number? = none) ∧ mkUnary op operand = .unary op operand := by
  unfold mkUnary
  split
  · exact .inl ⟨_, rfl, rfl, rfl⟩
  · rename_i hne
    refine .inr ⟨?_, rfl⟩
    rintro rfl
    cases operand with
    | number n => exact (hne n rfl rfl).elim
    | _ => rfl

theorem isWord_mkBinary (op : BinaryOp) (hlhs : lhs.IsWord) (hrhs : rhs.IsWord) :
    (mkBinary op lhs rhs).IsWord := by
  cases hlhs with
  | int a =>
    cases hrhs with
    | int b =>
      rw [mkBinary, Number.apply, Number.applyWords_eq]
      exact .int _
    | _ => exact .binary op (.int a) (by constructor <;> assumption)
  | _ => exact .binary op (by constructor <;> assumption) hrhs

theorem eval?_mkBinary (store : Store) (op : BinaryOp) (hlhs : lhs.IsWord) (hrhs : rhs.IsWord) :
    (mkBinary op lhs rhs).eval? store = (binary op lhs rhs).eval? store := by
  cases hlhs with
  | int a =>
    cases hrhs with
    | int b =>
      rw [mkBinary, Number.apply, Number.applyWords_eq]
      rfl
    | _ => rfl
  | _ => rfl

theorem reads_mkBinary (op : BinaryOp) : (mkBinary op lhs rhs).reads = lhs.reads ++ rhs.reads := by
  rcases mkBinary_cases op lhs rhs with ⟨a, b, rfl, rfl, heq⟩ | ⟨-, heq⟩ <;> rw [heq] <;> rfl

theorem isWord_mkUnary (op : UnaryOp) (h : operand.IsWord) : (mkUnary op operand).IsWord := by
  cases op with
  | not => exact .unary .not h
  | neg =>
    cases h with
    | int n => exact .int _
    | _ => exact .unary .neg (by constructor <;> assumption)

theorem eval?_mkUnary (store : Store) (op : UnaryOp) (h : operand.IsWord) :
    (mkUnary op operand).eval? store = (unary op operand).eval? store := by
  cases op with
  | not => rfl
  | neg => cases h <;> rfl

theorem reads_mkUnary (op : UnaryOp) : (mkUnary op operand).reads = operand.reads := by
  rcases mkUnary_cases op operand with ⟨n, rfl, rfl, heq⟩ | ⟨-, heq⟩ <;> rw [heq] <;> rfl

/-- Folding leaves an operand of words, with the same value in every store. -/
theorem IsWord.fold {e : Operand} (h : e.IsWord) :
    e.fold.IsWord ∧ ∀ store, e.fold.eval? store = e.eval? store := by
  induction h with
  | int n => exact ⟨.int n, fun _ => rfl⟩
  | var name => exact ⟨.var name, fun _ => rfl⟩
  | binary op _ _ ihlhs ihrhs =>
    refine ⟨isWord_mkBinary op ihlhs.1 ihrhs.1, fun store => ?_⟩
    rw [Operand.fold, eval?_mkBinary store op ihlhs.1 ihrhs.1]
    simp only [eval?, ihlhs.2 store, ihrhs.2 store]
  | unary op _ ih =>
    refine ⟨isWord_mkUnary op ih.1, fun store => ?_⟩
    rw [Operand.fold, eval?_mkUnary store op ih.1]
    simp only [eval?, ih.2 store]
  | logical op _ _ ihlhs ihrhs =>
    refine ⟨.logical op ihlhs.1 ihrhs.1, fun store => ?_⟩
    simp only [Operand.fold, eval?, ihlhs.2 store, ihrhs.2 store]

/-- The value depends only on the variables read. -/
theorem eval?_congr {e : Operand} {store store' : Store} (hword : e.IsWord)
    (h : ∀ x ∈ e.reads, store x = store' x) : e.eval? store = e.eval? store' := by
  induction hword with
  | int n => rfl
  | var name => simp [eval?, h name (by simp [reads])]
  | binary op _ _ ihlhs ihrhs | logical op _ _ ihlhs ihrhs =>
    have hlhs := ihlhs fun x hx => h x (by simp [reads, hx])
    have hrhs := ihrhs fun x hx => h x (by simp [reads, hx])
    simp only [eval?, hlhs, hrhs]
  | unary op _ ih =>
    have hoperand := ih fun x hx => h x (by simpa [reads] using hx)
    simp only [eval?, hoperand]

end Operand

end ImpMachine

namespace ImpMachine.Linear

/-- An instruction with its right-hand side folded, unless the listing already shows a number. -/
def refolded (i : Instr) : Instr := (refoldInstr i).1

/-- Folding goes over the instructions one by one. -/
theorem refold_eq_map (code : List Instr) : (refold code).1 = code.map refolded := by
  have hfrom (index : Nat) : (refoldFrom index code).1 = code.map refolded := by
    induction code generalizing index with
    | nil => rfl
    | cons i rest ih => simp [refoldFrom, refolded, ih]
  exact hfrom 0

/-- The right-hand side is kept or folded. -/
theorem refoldValue_cases (name : String) (value : Operand) :
    refoldValue name value = none ∨
      ∃ finding, refoldValue name value = some (value.fold, finding) := by
  simp only [refoldValue]
  split
  · exact .inl rfl
  · split
    · exact .inl rfl
    · exact .inr ⟨_, rfl⟩

/-- Refolding does not change what an instruction does. -/
theorem execute_refolded {i : Instr} (h : i.IsCallFree) (s : State) :
    s.execute (refolded i) = s.execute i := by
  cases i with
  | declare name value | assign name value =>
    have hword : value.IsWord := h
    rcases refoldValue_cases name value with hkept | ⟨finding, hfolded⟩
    · simp [refolded, refoldInstr, hkept]
    · simp [refolded, refoldInstr, hfolded, State.execute, State.eval?, hword.fold.2]
  | _ => rfl

theorem isPlain_refolded {i : Instr} (h : i.IsPlain) : (refolded i).IsPlain := by
  cases i with
  | declare name value | assign name value =>
    rcases refoldValue_cases name value with hkept | ⟨finding, hfolded⟩
    · simpa [refolded, refoldInstr, hkept] using h
    · simp [refolded, refoldInstr, hfolded, Instr.IsPlain, Instr.opens?, Instr.closes?]
  | _ => exact h

/-! ## Assignments inside expressions -/

theorem eval?_ofLiteral (store : Store) (value : Literal) :
    (ofLiteral value).eval? store = value.word? := by
  cases value <;> rfl

/-- An expression of words leaves an operand of words that reads no other variables. -/
theorem isWord_flatten {e : Expr} (h : e.IsWord) :
    (flatten e).2.IsWord ∧ (flatten e).2.reads ⊆ e.names := by
  induction h with
  | @literal value hvalue =>
    cases value with
    | float | string => cases hvalue
    | _ => exact ⟨.int _, nil_subset _⟩
  | var name => exact ⟨.var name, List.Subset.refl _⟩
  | binary op _ _ ihleft ihright =>
    refine ⟨Operand.isWord_mkBinary op ihleft.1 ihright.1, ?_⟩
    intro x hx
    rw [flatten, Operand.reads_mkBinary] at hx
    rcases mem_append.1 hx with hx | hx
    · exact mem_append_left _ (ihleft.2 hx)
    · exact mem_append_right _ (ihright.2 hx)
  | unary op _ ih =>
    refine ⟨Operand.isWord_mkUnary op ih.1, ?_⟩
    rw [flatten, Operand.reads_mkUnary]
    exact ih.2
  | logical op _ _ ihleft ihright =>
    refine ⟨.logical op ihleft.1 ihright.1, ?_⟩
    intro x hx
    rcases mem_append.1 hx with hx | hx
    · exact mem_append_left _ (ihleft.2 hx)
    · exact mem_append_right _ (ihright.2 hx)
  | assign name _ _ => exact ⟨.var name, by simp [flatten, Operand.reads, Expr.names]⟩

/-- Only assignments are taken out. -/
theorem hoisted_eq_assign {e : Expr} (h : e.IsWord) {i : Instr} (hi : i ∈ (flatten e).1) :
    ∃ name value, i = .assign name value ∧ value.IsWord := by
  induction h with
  | literal | var => cases hi
  | binary _ _ _ ihleft ihright | logical _ _ _ ihleft ihright =>
    rcases mem_append.1 hi with hi | hi
    · exact ihleft hi
    · exact ihright hi
  | unary _ _ ih => exact ih hi
  | assign name hvalue ih =>
    rcases mem_append.1 hi with hi | hi
    · exact ih hi
    · exact ⟨name, _, mem_singleton.1 hi, (isWord_flatten hvalue).1⟩

end ImpMachine.Linear

namespace ImpMachine.Expr

/-- An assignment contributes its target and its right-hand side. -/
theorem count_assignment_le {e : Expr} (h : e.IsWord) {a : String × Expr}
    (ha : a ∈ e.assignments) : 1 + a.2.names.count a.1 ≤ e.names.count a.1 := by
  induction h with
  | literal | var => cases ha
  | binary _ _ _ ihleft ihright | logical _ _ _ ihleft ihright =>
    simp only [names, count_append]
    rcases mem_append.1 ha with ha | ha
    · have := ihleft ha
      omega
    · have := ihright ha
      omega
  | unary _ _ ih => exact ih ha
  | assign name _ ih =>
    rcases mem_cons.1 ha with rfl | ha
    · simp only [names, count_cons_self]
      omega
    · exact Nat.le_trans (ih ha) count_le_count_cons

/-- Parts of an expression keep their assignments apart. -/
theorem AssignsApart.of_sublist {e part : Expr} (hpart : part.IsWord)
    (hnames : part.names.Sublist e.names) (hassignments : part.assignments.Sublist e.assignments)
    (h : e.AssignsApart) : part.AssignsApart := by
  intro a ha
  have hmem := count_pos_iff.2 (mem_map_of_mem (f := Prod.fst) ha)
  have hle := count_assignment_le hpart ha
  obtain ⟨hone, hcount⟩ := h a (hassignments.subset ha)
  have hassigned := (hassignments.map Prod.fst).count_le a.1
  have hnames := hnames.count_le a.1
  simp only [assigned] at *
  omega

/-- No variable of the left side is assigned in the right one. -/
theorem AssignsApart.sides {e left right : Expr} (hleft : left.IsWord) (hright : right.IsWord)
    (hnames : e.names = left.names ++ right.names)
    (hassignments : e.assignments = left.assignments ++ right.assignments) (h : e.AssignsApart) :
    left.AssignsApart ∧ right.AssignsApart ∧ ∀ x ∈ left.names, x ∉ right.assigned := by
  refine ⟨h.of_sublist hleft (by simp [hnames]) (by simp [hassignments]),
    h.of_sublist hright (by simp [hnames]) (by simp [hassignments]), fun x hx hassigned => ?_⟩
  obtain ⟨a, ha, rfl⟩ := mem_map.1 hassigned
  have hle := count_assignment_le hright ha
  have hpos := count_pos_iff.2 hx
  have hcount := (h a (by simp [hassignments, ha])).2
  rw [hnames, count_append] at hcount
  omega

end ImpMachine.Expr

namespace ImpMachine.Linear

variable {e : Expr}

/-- The state after plain instructions. -/
def State.executeAll (s : State) (code : List Instr) : Option State :=
  code.foldlM State.execute s

/-- What the code of an expression does: the assignments taken out lead to the state after it, and
there the operand has its value. -/
structure Flattens (e : Expr) (s : State) (v : Int64) (t : State) : Prop where
  eval : e.eval? s = some (v, t)
  hoisted : s.executeAll ((flatten e).1.map refolded) = some t
  operand : State.eval? (flatten e).2 t = some v
  kept : ∀ x, x ∉ e.assigned → t.store x = s.store x

theorem executeAll_append {s t : State} {code more : List Instr} (h : s.executeAll code = some t) :
    s.executeAll (code ++ more) = t.executeAll more := by
  simp only [State.executeAll] at *
  simp [foldlM_append, h]

/-- The assignments of the right side write nothing that the left operand reads. -/
theorem Flattens.sides {left right : Expr} {s t u : State} {a b : Int64}
    (hleft : left.IsWord) (hapart : ∀ x ∈ left.names, x ∉ right.assigned)
    (h : Flattens left s a t) (h' : Flattens right t b u) :
    s.executeAll (((flatten left).1 ++ (flatten right).1).map refolded) = some u ∧
      State.eval? (flatten left).2 u = some a ∧
      ∀ x, x ∉ left.assigned ++ right.assigned → u.store x = s.store x := by
  obtain ⟨hword, hreads⟩ := isWord_flatten hleft
  refine ⟨?_, ?_, ?_⟩
  · rw [map_append, executeAll_append h.hoisted, h'.hoisted]
  · rw [← h.operand]
    exact Operand.eval?_congr hword fun x hx => h'.kept x (hapart x (hreads hx))
  · intro x hx
    rw [mem_append, not_or] at hx
    rw [h'.kept x hx.2, h.kept x hx.1]

/-- An assignment is taken out behind those of its right-hand side. -/
theorem Flattens.assign {name : String} {value : Expr} {s t : State} {v : Int64}
    (hvalue : value.IsWord) (h : Flattens value s v t) :
    Flattens (.assign name value) s v (t.set name v) where
  eval := by simp [Expr.eval?, h.eval]
  hoisted := by
    have hword : (Instr.assign name (flatten value).2).IsCallFree := (isWord_flatten hvalue).1
    have hlast : t.execute (.assign name (flatten value).2) = some (t.set name v) := by
      simp [State.execute, h.operand]
    simp only [flatten, map_append, map_cons, map_nil]
    rw [executeAll_append h.hoisted]
    simp [State.executeAll, execute_refolded hword, hlast]
  operand := by simp [flatten, State.eval?, Operand.eval?, State.set]
  kept := by
    intro x hx
    have hx : x ∉ name :: value.assigned := hx
    rw [mem_cons, not_or] at hx
    simp [State.set, hx.1, h.kept x hx.2]

/-- **Taking assignments out keeps the meaning of an expression.** -/
theorem exists_flattens (h : e.IsFlattenable) (s : State) : ∃ v t, Flattens e s v t := by
  obtain ⟨hword, hapart⟩ := h
  induction hword generalizing s with
  | @literal value hvalue =>
    obtain ⟨v, hv⟩ := Option.isSome_iff_exists.1 hvalue
    exact ⟨v, s, by simp [Expr.eval?, hv], rfl,
      by simp [flatten, State.eval?, eval?_ofLiteral, hv], fun _ _ => rfl⟩
  | var name => exact ⟨s.store name, s, rfl, rfl, rfl, fun _ _ => rfl⟩
  | unary op hoperand ih =>
    obtain ⟨v, t, hflat⟩ := ih s hapart
    refine ⟨op.eval v, t, by simp [Expr.eval?, hflat.eval], hflat.hoisted, ?_, hflat.kept⟩
    have hvalue := Operand.eval?_mkUnary t.store op (isWord_flatten hoperand).1
    exact hvalue.trans (Operand.eval?_unary_eq_some.2 ⟨v, hflat.operand, rfl⟩)
  | binary op hleft hright ihleft ihright =>
    obtain ⟨hl, hr, hnames⟩ := hapart.sides hleft hright rfl rfl
    obtain ⟨a, t, hflat⟩ := ihleft s hl
    obtain ⟨b, u, hflat'⟩ := ihright t hr
    obtain ⟨hhoisted, hlhs, hkept⟩ := hflat.sides hleft hnames hflat'
    refine ⟨op.eval a b, u, by simp [Expr.eval?, hflat.eval, hflat'.eval], hhoisted, ?_, ?_⟩
    · have hvalue := Operand.eval?_mkBinary u.store op (isWord_flatten hleft).1
        (isWord_flatten hright).1
      exact hvalue.trans (Operand.eval?_binary_eq_some.2 ⟨a, b, hlhs, hflat'.operand, rfl⟩)
    · simpa [Expr.assigned, Expr.assignments] using hkept
  | logical op hleft hright ihleft ihright =>
    obtain ⟨hl, hr, hnames⟩ := hapart.sides hleft hright rfl rfl
    obtain ⟨a, t, hflat⟩ := ihleft s hl
    obtain ⟨b, u, hflat'⟩ := ihright t hr
    obtain ⟨hhoisted, hlhs, hkept⟩ := hflat.sides hleft hnames hflat'
    refine ⟨op.eval a b, u, by simp [Expr.eval?, hflat.eval, hflat'.eval], hhoisted, ?_, ?_⟩
    · exact Operand.eval?_logical_eq_some.2 ⟨a, b, hlhs, hflat'.operand, rfl⟩
    · simpa [Expr.assigned, Expr.assignments] using hkept
  | assign name hvalue ih =>
    obtain ⟨v, t, hflat⟩ :=
      ih s (hapart.of_sublist hvalue (sublist_cons_self ..) (sublist_cons_self ..))
    exact ⟨v, t.set name v, hflat.assign hvalue⟩

/-! ## Statements -/

/-- One sequence after another. -/
def Body.append : Body → Body → Body
  | .nil, after => after
  | .plain i hi rest, after => .plain i hi (rest.append after)
  | .conditional cond body rest, after => .conditional cond body (rest.append after)
  | .choice cond body other rest, after => .choice cond body other (rest.append after)
  | .loop cond body rest, after => .loop cond body (rest.append after)
  | .block body rest, after => .block body (rest.append after)

theorem Body.flatten_append (b after : Body) :
    (b.append after).flatten = b.flatten ++ after.flatten := by
  induction b <;> simp_all [Body.append, Body.flatten]

theorem Body.run_append (bound : Nat) (b after : Body) (s : State) :
    (b.append after).run bound s = (b.run bound s).bind (after.run bound) := by
  induction b generalizing s with
  | nil => rfl
  | plain i hi rest ih | loop cond body rest ihbody ih | block body rest ihbody ih =>
    simp [Body.append, Body.run, ih, Option.bind_assoc]
  | conditional cond body rest ihbody ih | choice cond body other rest ihbody ihother ih =>
    simp only [Body.append, Body.run, ih, Option.bind_eq_bind, Option.bind_assoc]
    congr 1
    funext v
    split <;> simp [Option.bind_assoc]

/-- The code is properly nested, and under every bound a run of it is the given function. -/
def Carries (code : List Instr) (f : Nat → State → Option State) : Prop :=
  ∃ body : Body, body.flatten = code ∧ ∀ bound s, body.run bound s = f bound s

namespace Carries

variable {code more : List Instr} {f g : Nat → State → Option State}

theorem congr (h : Carries code f) (hfg : ∀ bound s, f bound s = g bound s) : Carries code g := by
  obtain ⟨body, hcode, hrun⟩ := h
  exact ⟨body, hcode, fun bound s => (hrun bound s).trans (hfg bound s)⟩

theorem nil : Carries [] fun _ s => some s :=
  ⟨.nil, rfl, fun _ _ => rfl⟩

theorem append (hcode : Carries code f) (hmore : Carries more g) :
    Carries (code ++ more) fun bound s => (f bound s).bind (g bound) := by
  obtain ⟨body, rfl, hrun⟩ := hcode
  obtain ⟨after, rfl, hafter⟩ := hmore
  refine ⟨body.append after, body.flatten_append after, fun bound s => ?_⟩
  rw [Body.run_append, hrun, funext (hafter bound)]

theorem plain {i : Instr} (hi : i.IsPlain) : Carries [i] fun _ s => s.execute i :=
  ⟨.plain i hi .nil, rfl, fun _ _ => by simp [Body.run]⟩

theorem plains (h : ∀ i ∈ code, i.IsPlain) : Carries code fun _ s => s.executeAll code := by
  induction code with
  | nil => exact .nil
  | cons i rest ih =>
    have hi := plain (h i mem_cons_self)
    have hrest := ih fun j hj => h j (mem_cons_of_mem _ hj)
    exact hi.append hrest

theorem conditional (cond : Operand) (h : Carries code f) :
    Carries (.ifBegin cond :: (code ++ [.endIf])) fun bound s =>
      (s.eval? cond).bind fun v => if v = 0 then some s else f bound s := by
  obtain ⟨body, rfl, hrun⟩ := h
  exact ⟨.conditional cond body .nil, rfl, fun bound s => by simp [Body.run, hrun]⟩

theorem choice (cond : Operand) (hcode : Carries code f) (hmore : Carries more g) :
    Carries (.ifBegin cond :: (code ++ .elseMark :: (more ++ [.endIf]))) fun bound s =>
      (s.eval? cond).bind fun v => if v = 0 then g bound s else f bound s := by
  obtain ⟨body, rfl, hrun⟩ := hcode
  obtain ⟨other, rfl, hother⟩ := hmore
  exact ⟨.choice cond body other .nil, rfl, fun bound s => by simp [Body.run, hrun, hother]⟩

theorem loop (cond : Operand) (h : Carries code f) :
    Carries (.whileBegin cond :: (code ++ [.endWhile])) fun bound s =>
      repeatUntilZero (State.eval? cond) (f bound) bound s := by
  obtain ⟨body, rfl, hrun⟩ := h
  exact ⟨.loop cond body .nil, rfl,
    fun bound s => by simp [Body.run, funext (hrun bound)]⟩

theorem block (h : Carries code f) : Carries (.blockStart :: (code ++ [.blockEnd])) f := by
  obtain ⟨body, rfl, hrun⟩ := h
  exact ⟨.block body .nil, rfl, fun bound s => by simp [Body.run, hrun]⟩

end Carries

theorem isPlain_hoisted (h : e.IsWord) : ∀ i ∈ (flatten e).1.map refolded, i.IsPlain := by
  intro i hi
  obtain ⟨j, hj, rfl⟩ := mem_map.1 hi
  obtain ⟨name, value, rfl, -⟩ := hoisted_eq_assign h hj
  exact isPlain_refolded ⟨rfl, rfl, nofun⟩

/-- Code behind the assignments taken out of its expression. -/
theorem carries_flatten (he : e.IsFlattenable) {code : List Instr} {f : Nat → State → Option State}
    {g : Int64 → Nat → State → Option State} (hcode : Carries code f)
    (hfg : ∀ bound v t, State.eval? (flatten e).2 t = some v → f bound t = g v bound t) :
    Carries ((flatten e).1.map refolded ++ code) fun bound s =>
      (e.eval? s).bind fun p => g p.1 bound p.2 := by
  refine ((Carries.plains (isPlain_hoisted he.1)).append hcode).congr fun bound s => ?_
  obtain ⟨v, t, hflat⟩ := exists_flattens he s
  simp only [hflat.hoisted, hflat.eval, Option.bind_some]
  exact hfg bound v t hflat.operand

/-- A test that changes the state does so before the loop and after every round. -/
theorem repeatWhile_eq {σ : Type} {test : σ → Option (Int64 × σ)} {cond : σ → Option Int64}
    {step : σ → Option σ} (change : σ → Option σ)
    (h : ∀ s, ∃ v t, test s = some (v, t) ∧ change s = some t ∧ cond t = some v)
    (rounds : Nat) (s : σ) :
    repeatWhile test step rounds s =
      (change s).bind (repeatUntilZero cond (fun s => (step s).bind change) rounds) := by
  induction rounds generalizing s with
  | zero =>
    obtain ⟨v, t, htest, hchange, hcond⟩ := h s
    simp [repeatWhile, repeatUntilZero, htest, hchange, hcond]
  | succ rounds ih =>
    obtain ⟨v, t, htest, hchange, hcond⟩ := h s
    rw [repeatWhile, hchange, Option.bind_some, repeatUntilZero, htest, hcond]
    by_cases hv : v = 0
    · simp [hv]
    · -- the rest of the loop starts with the change made after the round
      simp [hv, funext ih, Option.bind_assoc]

/-- A plain instruction that uses the operand of an expression. -/
theorem carries_instr (he : e.IsFlattenable) (i : Instr) (hplain : i.IsPlain) (hfree : i.IsCallFree)
    {g : Int64 → State → State}
    (hg : ∀ v t, State.eval? (flatten e).2 t = some v → t.execute i = some (g v t)) :
    Carries (((flatten e).1 ++ [i]).map refolded) fun _ s =>
      (e.eval? s).bind fun p => some (g p.1 p.2) := by
  rw [map_append, map_singleton]
  refine carries_flatten he (g := fun v _ t => some (g v t))
    (Carries.plain (isPlain_refolded hplain)) fun bound v t hv => ?_
  rw [execute_refolded hfree, hg v t hv]

/-- An expression that stands alone. -/
theorem carries_ofExpression (he : e.IsFlattenable) :
    Carries ((ofExpression e).map refolded) fun _ s => (e.eval? s).bind fun p => some p.2 := by
  have hword := (isWord_flatten he.1).1
  have halone : Carries (((flatten e).1 ++ [Instr.expr (flatten e).2]).map refolded) fun _ s =>
      (e.eval? s).bind fun p => some p.2 :=
    carries_instr he (.expr (flatten e).2) (g := fun _ t => t) ⟨rfl, rfl, nofun⟩ hword
      fun v t hv => by simp [State.execute, hv]
  cases e with
  | assign name value =>
    -- nothing follows an assignment, whose own instruction is among those taken out
    refine (Carries.plains (isPlain_hoisted he.1)).congr fun bound s => ?_
    obtain ⟨v, t, hflat⟩ := exists_flattens he s
    simp [hflat.hoisted, hflat.eval]
  | call callee args => cases he.1
  | _ => exact halone

/-- The assignments of a condition stand before the loop and at the end of its body. -/
theorem carries_loop {cond : Expr} (hcond : cond.IsFlattenable) {code : List Instr}
    {f : Nat → State → Option State} (hcode : Carries code f) :
    Carries ((flatten cond).1.map refolded ++
        .whileBegin (flatten cond).2 :: (code ++ (flatten cond).1.map refolded ++ [.endWhile]))
      fun bound s => repeatWhile cond.eval? (f bound) bound s := by
  have hoisted := Carries.plains (isPlain_hoisted hcond.1)
  refine (hoisted.append ((hcode.append hoisted).loop (flatten cond).2)).congr fun bound s => ?_
  refine (repeatWhile_eq (fun s => s.executeAll ((flatten cond).1.map refolded))
    (fun s => ?_) bound s).symm
  obtain ⟨v, t, hflat⟩ := exists_flattens hcond s
  exact ⟨v, t, hflat.eval, hflat.hoisted, hflat.operand⟩

mutual

/-- **The code of a statement does what the statement does.** -/
theorem carries_ofStmt : (stmt : Stmt) → stmt.Uses Expr.IsFlattenable →
    Carries ((ofStmt stmt).map refolded) fun bound s => stmt.run bound s
  | .varDecl name init, h => by
    have hinit : init.IsFlattenable := h
    exact carries_instr hinit (.declare name (flatten init).2) (g := fun v t => t.set name v)
      ⟨rfl, rfl, nofun⟩ (isWord_flatten hinit.1).1 fun v t hv => by simp [State.execute, hv]
  | .print e, h => by
    have he : e.IsFlattenable := h
    exact carries_instr he (.print (flatten e).2) (g := fun v t => t.print v)
      ⟨rfl, rfl, nofun⟩ (isWord_flatten he.1).1 fun v t hv => by simp [State.execute, hv]
  | .expr e, h => carries_ofExpression h
  | .ifThen cond body, h => by
    obtain ⟨hcond, hbody⟩ : cond.IsFlattenable ∧ Stmt.UsesAll Expr.IsFlattenable body := h
    have hcode := carries_flatten hcond
      (g := fun v bound t => if v = 0 then some t else Stmt.runAll bound body t)
      ((carries_ofStmts body hbody).conditional (flatten cond).2)
      fun bound v t hv => by simp [hv]
    simp only [ofStmt, map_append, map_cons, append_assoc, cons_append]
    exact hcode
  | .ifElse cond body alternative, h => by
    obtain ⟨hcond, hbody, halternative⟩ : cond.IsFlattenable ∧
      Stmt.UsesAll Expr.IsFlattenable body ∧ Stmt.UsesAll Expr.IsFlattenable alternative := h
    have hcode := carries_flatten hcond
      (g := fun v bound t =>
        if v = 0 then Stmt.runAll bound alternative t else Stmt.runAll bound body t)
      ((carries_ofStmts body hbody).choice (flatten cond).2
        (carries_ofStmts alternative halternative))
      fun bound v t hv => by simp [hv]
    simp only [ofStmt, map_append, map_cons, append_assoc, cons_append]
    exact hcode
  | .while cond body, h => by
    obtain ⟨hcond, hbody⟩ : cond.IsFlattenable ∧ Stmt.UsesAll Expr.IsFlattenable body := h
    have hcode := carries_loop hcond (carries_ofStmts body hbody)
    simp only [ofStmt, map_append, map_cons, append_assoc, cons_append]
    simp only [append_assoc] at hcode
    exact hcode
  | .block body, h => by
    have hcode := (carries_ofStmts body h).block
    simp only [ofStmt, map_append, map_cons, cons_append]
    exact hcode
  | .ret _, h | .funcDecl .., h | .macroDecl .., h => h.elim

/-- The code of several statements. -/
theorem carries_ofStmts : (stmts : List Stmt) → Stmt.UsesAll Expr.IsFlattenable stmts →
    Carries ((ofStmts stmts).map refolded) fun bound s => Stmt.runAll bound stmts s
  | [], _ => .nil
  | stmt :: rest, h => by
    have hcode := (carries_ofStmt stmt h.1).append (carries_ofStmts rest h.2)
    simp only [ofStmts, map_append]
    exact hcode

end

/-- **The code of a program halts in the same states as the program.** From every state, so that
also the words printed and the values of all variables agree. -/
theorem haltsIn_generate_iff {program : List Stmt}
    (hprogram : Stmt.UsesAll Expr.IsFlattenable program) (s t : State) :
    HaltsIn (generate program).code s t ↔ Stmt.HaltsIn program s t := by
  obtain ⟨body, hcode, hrun⟩ := carries_ofStmts program hprogram
  have hgenerated : body.flatten = (generate program).code := by
    rw [hcode, ← refold_eq_map]
    rfl
  constructor
  · rintro ⟨other, hother, bound, hbound⟩
    have hsame : other = body := Body.flatten_injective (hother.trans hgenerated.symm)
    subst hsame
    exact ⟨bound, (hrun bound s).symm.trans hbound⟩
  · rintro ⟨bound, hbound⟩
    exact ⟨body, hgenerated, bound, (hrun bound s).trans hbound⟩

/-- A loop whose condition counts down, around a chain of assignments inside an operator. -/
def countingTest : List Stmt :=
  [.varDecl "n" (.literal (.integer 3)),
    .while (.assign "n" (.binary .sub (.var "n") (.literal (.bool true))))
      [.ifElse (.binary .gt (.var "n") (.literal (.integer 1)))
        [.print (.binary .mul (.assign "a" (.assign "b" (.var "n"))) (.literal (.char 'd')))]
        [.block [.print (.var "b"), .expr (.logical .or (.var "a") (.literal .null))]]]]

/-- It prints 200 and 2. -/
theorem haltsIn_generate_countingTest :
    Stmt.UsesAll Expr.IsFlattenable countingTest ∧
      ∃ t, t.output = #[200, 2] ∧ HaltsIn (generate countingTest).code .initial t := by
  have huses : Stmt.UsesAll Expr.IsFlattenable countingTest := by decide
  have hrun : (Stmt.runAll 2 countingTest .initial).map State.output = some #[200, 2] := by
    decide
  obtain ⟨t, ht, houtput⟩ := Option.map_eq_some_iff.1 hrun
  exact ⟨huses, t, houtput, (haltsIn_generate_iff huses .initial t).2 ⟨2, ht⟩⟩

end ImpMachine.Linear
