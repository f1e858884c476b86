import ImpMachine.Linear.Basic
import ImpMachine.Assembly.Error

/-!
# Functions of linear code

Linear code is taken apart into its top-level code and its functions. A function nested in another
becomes one of its own, after the one around it; macro declarations are dropped with all they
enclose. Parameters and temporaries live in fixed registers, so no function may be called again
while it runs, and the check for that searches the calls from each function in turn.
-/

namespace ImpMachine.Assembly

open Linear

/-- A function and its body, from which nested declarations are taken out. -/
structure Function where
  name : String
  params : List String
  body : List Instr

/-- Linear code taken apart: the code that stands outside every function, and the functions. -/
structure Parts where
  main : List Instr
  functions : List Function

namespace Parts

/-- No code at all. -/
def empty : Parts := ⟨[], []⟩

/-- Code with one more instruction in front. -/
def cons (i : Instr) (parts : Parts) : Parts :=
  { parts with main := i :: parts.main }

/-- Code with the declaration of a function in front, the function's body being `inner`. -/
def declare (parts : Parts) (name : String) (params : List String) (inner : Parts) : Parts :=
  { parts with functions := ⟨name, params, inner.main⟩ :: inner.functions ++ parts.functions }

end Parts

/-! ## Splitting

The code is read from its end. The stack has the parts of the declarations whose ends were read,
innermost first, and at the bottom the parts of the whole. -/

/-- Puts an instruction in front of the parts read so far. -/
def splitStep (i : Instr) (stack : List Parts) : List Parts :=
  match i, stack with
  | .endFunc, stack | .endMacro, stack => .empty :: stack
  | .funcDecl name params, inner :: parts :: outer => parts.declare name params inner :: outer
  | .macroDecl _, _ :: outer => outer
  | i, parts :: outer => parts.cons i :: outer
  | _, [] => []

/-- Takes properly nested linear code apart. -/
def split (code : List Instr) : Parts :=
  (code.foldr splitStep [.empty]).headD .empty

/-! ## Names -/

/-- The parameters of each function by its name. -/
abbrev Signatures := List (String × List String)

/-- The parameters of the functions, whose names have to differ. -/
def signaturesFrom (known : Signatures) : List Function → Except AssembleError Signatures
  | [] => .ok known
  | f :: rest =>
    if (known.lookup f.name).isSome then .error (.duplicateFunction f.name)
    else signaturesFrom (known ++ [(f.name, f.params)]) rest

/-- The parameters of the functions, whose names have to differ. -/
def signatures (functions : List Function) : Except AssembleError Signatures :=
  signaturesFrom [] functions

/-! ## Recursion -/

/-- The functions that an instruction calls, in order of their mention. -/
def instrCalls (i : Instr) : List String :=
  let own := match i with
    | .call callee _ => [callee]
    | _ => []
  own ++ i.operands.flatMap Operand.calls

/-- The functions that a body calls, in order of their mention. -/
def Function.callees (f : Function) : List String :=
  f.body.flatMap instrCalls

/-- The function of a name. -/
def find? (functions : List Function) (name : String) : Option Function :=
  functions.find? (·.name == name)

/-- How many functions are not on a path. -/
def offPath (functions : List Function) (path : List String) : Nat :=
  (functions.filter fun f => !path.contains f.name).length

theorem offPath_cons_lt {functions : List Function} {path : List String} {name : String}
    {f : Function} (hfind : find? functions name = some f) (hpath : path.contains name = false) :
    offPath functions (name :: path) < offPath functions path := by
  have hname : f.name = name := by simpa using List.find?_some hfind
  have hmem : f ∈ functions := List.mem_of_find?_eq_some hfind
  have hfilter : functions.filter (fun f => !(name :: path).contains f.name)
      = (functions.filter fun f => !path.contains f.name).filter (fun f => f.name != name) := by
    rw [List.filter_filter]
    congr 1
    funext g
    by_cases hg : g.name = name <;> simp [hg]
  unfold offPath
  rw [hfilter, List.length_filter_lt_length_iff_exists]
  exact ⟨f, List.mem_filter.2 ⟨hmem, by rw [hname, hpath]; rfl⟩, by simp [hname]⟩

mutual

/-- Searches the calls from a function. The path has the functions being searched, innermost first.
Those done were searched before, and the result adds to them. -/
def visit (functions : List Function) (name : String) (path done : List String) :
    Except AssembleError (List String) :=
  if _hpath : path.contains name then
    .error (.recursion (name :: (path.takeWhile (· != name)).reverse ++ [name]))
  else if done.contains name then .ok done
  else
    match _h : find? functions name with
    | none => .ok done
    | some f => (visitAll functions f.callees (name :: path) done).map (name :: ·)
termination_by (offPath functions path, 0)
decreasing_by
  exact Prod.Lex.left _ _ (offPath_cons_lt _h (by simpa using _hpath))

/-- Searches the calls from several functions, one after the other. -/
def visitAll (functions : List Function) (names path done : List String) :
    Except AssembleError (List String) :=
  match names with
  | [] => .ok done
  | name :: rest =>
    match visit functions name path done with
    | .error e => .error e
    | .ok done => visitAll functions rest path done
termination_by (offPath functions path, names.length + 1)
decreasing_by
  · exact Prod.Lex.right _ (by simp)
  · exact Prod.Lex.right _ (by simp)

end

/-- Makes sure that no function can be called while it runs. A call of no function is passed over
here. -/
def checkRecursion (functions : List Function) : Except AssembleError Unit :=
  (visitAll functions (functions.map (·.name)) [] []).map fun _ => ()

end ImpMachine.Assembly
