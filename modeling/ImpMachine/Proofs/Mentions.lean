import ImpMachine.Assembly.Load
import ImpMachine.Proofs.Nested

/-!
# The names of a body

Names hold registers under keys: a function's own variables are qualified by its name, all others
are shared. Which variables are a function's own changes on the way through its body, since a
declaration makes a name the function's own from there on. So the keys of a body are collected in
the order in which it is lowered, with the scope at each instruction; a loop's condition is lowered
once before its body and once behind it.

`mentions` has every key for which code of the body asks for a register, `assigns` those whose
register the code sets. Passing an argument sets a parameter of the callee.
-/

namespace ImpMachine

open Assembly Linear List

namespace Assembly

/-- The key of a variable in a scope. -/
def keyIn (scope : Option Scope) (name : String) : String :=
  Environment.key ⟨⟨[], []⟩, scope⟩ name

/-- The keys of a function's parameters. -/
def parameterKeys (signatures : Signatures) (callee : String) : List String :=
  ((signatures.lookup callee).getD []).map (qualified callee)

end Assembly

/-! ## Operands -/

namespace Operand

/-- What an argument reads and calls, the arguments do. -/
theorem subset_all_of_mem {a : Operand} {args : List Operand} (h : a ∈ args) :
    a.reads ⊆ readsAll args ∧ a.calls ⊆ callsAll args := by
  induction args with
  | nil => cases h
  | cons b rest ih =>
    rcases mem_cons.1 h with rfl | h
    · exact ⟨subset_append_left _ _, subset_append_left _ _⟩
    · exact ⟨fun x hx => mem_append_right _ ((ih h).1 hx),
        fun x hx => mem_append_right _ ((ih h).2 hx)⟩

variable (signatures : Signatures)

/-- The keys that an operand mentions: the variables read, and for calls the parameters and the
result. -/
def mentions (scope : Option Scope) (e : Operand) : List String :=
  e.reads.map (keyIn scope) ++ e.calls.flatMap fun callee =>
    returnName :: parameterKeys signatures callee

/-- The keys that evaluating an operand sets: parameters of the functions called. -/
def assigns (e : Operand) : List String :=
  e.calls.flatMap (parameterKeys signatures)

theorem assigns_subset_mentions (scope : Option Scope) (e : Operand) :
    e.assigns signatures ⊆ e.mentions signatures scope := by
  intro x hx
  obtain ⟨callee, hcallee, hx⟩ := mem_flatMap.1 hx
  exact mem_append_right _ (mem_flatMap.2 ⟨callee, hcallee, mem_cons_of_mem _ hx⟩)

end Operand

/-! ## Instructions -/

namespace Linear.Instr

/-- The scope behind an instruction. -/
def scopeAfter : Instr → Option Scope → Option Scope
  | .declare name _, scope => scope.map fun scope => { scope with locals := name :: scope.locals }
  | _, scope => scope

variable (signatures : Signatures) (scope : Option Scope) (i : Instr)

/-- The keys that an instruction sets besides those of its operands. -/
def targets : List String :=
  match i with
  | .declare name _ | .assign name _ => [keyIn (i.scopeAfter scope) name]
  | .call callee _ => parameterKeys signatures callee
  | .ret _ => [returnName]
  | _ => []

/-- The keys that an instruction mentions. A declared name is the function's own in its first value
already. -/
def mentions : List String :=
  i.operands.flatMap (Operand.mentions signatures (i.scopeAfter scope)) ++
    i.targets signatures scope

/-- The keys that an instruction sets. -/
def assigns : List String :=
  i.operands.flatMap (Operand.assigns signatures) ++ i.targets signatures scope

theorem assigns_subset_mentions : i.assigns signatures scope ⊆ i.mentions signatures scope := by
  refine append_subset.2 ⟨fun x hx => ?_, subset_append_right _ _⟩
  obtain ⟨e, he, hx⟩ := mem_flatMap.1 hx
  exact mem_append_left _
    (mem_flatMap.2 ⟨e, he, e.assigns_subset_mentions signatures _ hx⟩)

end Linear.Instr

/-! ## Bodies -/

namespace Linear.Body

/-- The scope behind a body. -/
def scopeAfter : Body → Option Scope → Option Scope
  | .nil, scope => scope
  | .plain i _ rest, scope => rest.scopeAfter (i.scopeAfter scope)
  | .conditional _ body rest, scope | .loop _ body rest, scope | .block body rest, scope =>
    rest.scopeAfter (body.scopeAfter scope)
  | .choice _ body other rest, scope =>
    rest.scopeAfter (other.scopeAfter (body.scopeAfter scope))

/-- What the instructions of a body have in the scopes in which they are lowered. -/
def collect (f : Option Scope → Instr → List String) : Body → Option Scope → List String
  | .nil, _ => []
  | .plain i _ rest, scope => f scope i ++ rest.collect f (i.scopeAfter scope)
  | .conditional cond body rest, scope =>
    f scope (.ifBegin cond) ++ (body.collect f scope ++ rest.collect f (body.scopeAfter scope))
  | .choice cond body other rest, scope =>
    f scope (.ifBegin cond) ++ (body.collect f scope ++
      (other.collect f (body.scopeAfter scope) ++
        rest.collect f (other.scopeAfter (body.scopeAfter scope))))
  | .loop cond body rest, scope =>
    f scope (.whileBegin cond) ++ (body.collect f scope ++
      (f (body.scopeAfter scope) (.whileBegin cond) ++ rest.collect f (body.scopeAfter scope)))
  | .block body rest, scope => body.collect f scope ++ rest.collect f (body.scopeAfter scope)

/-- What is collected grows with what each instruction gives. -/
theorem collect_subset {f g : Option Scope → Instr → List String}
    (h : ∀ scope i, f scope i ⊆ g scope i) (body : Body) (scope : Option Scope) :
    body.collect f scope ⊆ body.collect g scope := by
  intro x
  induction body generalizing scope with
  | nil => exact id
  | plain i _ rest ih =>
    simp only [collect, mem_append]
    exact Or.imp (@h _ _ x) (ih _)
  | conditional cond body rest ihbody ihrest =>
    simp only [collect, mem_append]
    exact Or.imp (@h _ _ x) (Or.imp (ihbody _) (ihrest _))
  | choice cond body other rest ihbody ihother ihrest =>
    simp only [collect, mem_append]
    exact Or.imp (@h _ _ x) (Or.imp (ihbody _) (Or.imp (ihother _) (ihrest _)))
  | loop cond body rest ihbody ihrest =>
    simp only [collect, mem_append]
    exact Or.imp (@h _ _ x) (Or.imp (ihbody _) (Or.imp (@h _ _ x) (ihrest _)))
  | block body rest ihbody ihrest =>
    simp only [collect, mem_append]
    exact Or.imp (ihbody _) (ihrest _)

variable (signatures : Signatures) (body : Body) (scope : Option Scope)

/-- The keys that a body mentions. -/
def mentions : List String := body.collect (Instr.mentions signatures) scope

/-- The keys that a body sets. -/
def assigns : List String := body.collect (Instr.assigns signatures) scope

theorem assigns_subset_mentions : body.assigns signatures scope ⊆ body.mentions signatures scope :=
  collect_subset (fun scope i => i.assigns_subset_mentions signatures scope) body scope

end Linear.Body

end ImpMachine
