import ImpMachine.Assembly.Functions
import ImpMachine.Proofs.Nested

/-!
# Taking nested code apart

Of nested code, the part outside all declarations is a body again, and so is the part of every
function (`split_flatten`): declarations are taken out whole, so what is left of a construct is
still closed by its own mark.
-/

open List

namespace ImpMachine.Assembly

open Linear

/-- A function whose code is a tree. -/
structure Routine where
  name : String
  params : List String
  body : Body

/-- The routine with its body written out. -/
def Routine.function (r : Routine) : Function := ⟨r.name, r.params, r.body.flatten⟩

end ImpMachine.Assembly

namespace ImpMachine.Linear.Nested

open Assembly

/-- What stands outside all declarations. -/
def body : Nested → Body
  | .nil => .nil
  | .plain i h rest => .plain i h rest.body
  | .enclosed (.conditional cond) inner rest => .conditional cond inner.body rest.body
  | .enclosed (.loop cond) inner rest => .loop cond inner.body rest.body
  | .enclosed .block inner rest => .block inner.body rest.body
  | .enclosed (.function ..) _ rest => rest.body
  | .enclosed (.macroBody _) _ rest => rest.body
  | .choice cond inner other rest => .choice cond inner.body other.body rest.body

/-- The functions declared outside macros, an outer one before those inside it. -/
def routines : Nested → List Routine
  | .nil => []
  | .plain _ _ rest => rest.routines
  | .enclosed (.function name params) inner rest =>
    ⟨name, params, inner.body⟩ :: (inner.routines ++ rest.routines)
  | .enclosed (.macroBody _) _ rest => rest.routines
  | .enclosed _ inner rest => inner.routines ++ rest.routines
  | .choice _ inner other rest => inner.routines ++ (other.routines ++ rest.routines)

/-- The parts of the written-out tree, in front of other parts. -/
def partsBefore (n : Nested) (parts : Parts) : Parts :=
  ⟨n.body.flatten ++ parts.main, n.routines.map Routine.function ++ parts.functions⟩

/-- A tree adds its parts to the innermost parts and leaves the rest alone. -/
theorem foldr_splitStep_flatten (n : Nested) (parts : Parts) (outer : List Parts) :
    n.flatten.foldr splitStep (parts :: outer) = n.partsBefore parts :: outer := by
  induction n generalizing parts outer with
  | nil => rfl
  | plain i hi rest ih =>
    rw [flatten, foldr_cons, ih]
    obtain ⟨hopens, hcloses, -⟩ := hi
    cases i with
    | funcDecl | macroDecl => cases hopens
    | endFunc | endMacro => cases hcloses
    | _ => rfl
  | enclosed opener inner rest ihinner ihrest =>
    rw [flatten, foldr_cons, foldr_append, foldr_cons, ihrest]
    cases opener with
    | conditional | loop | block =>
      simp only [Opener.construct, Construct.last, splitStep, ihinner, Opener.first, partsBefore,
        body, routines, Parts.cons, Body.flatten, cons_append, append_assoc,
        map_append]
    | function name params =>
      simp only [Opener.construct, Construct.last, splitStep, ihinner, Opener.first, partsBefore,
        body, routines, Parts.declare, Parts.empty, append_nil, cons_append,
        append_assoc, map_cons, map_append, Routine.function]
    | macroBody name =>
      simp only [Opener.construct, Construct.last, splitStep, ihinner, Opener.first, partsBefore,
        body, routines]
  | choice cond inner other rest ihinner ihother ihrest =>
    rw [flatten, foldr_cons, foldr_append, foldr_cons, foldr_append,
      foldr_cons, ihrest]
    simp only [splitStep, ihother, ihinner, partsBefore, body, routines, Parts.cons, Body.flatten,
      cons_append, append_assoc, map_append]

/-- **The parts of nested code are bodies.** -/
theorem split_flatten (n : Nested) :
    split n.flatten = ⟨n.body.flatten, n.routines.map Routine.function⟩ := by
  rw [split, foldr_splitStep_flatten]
  simp [partsBefore, Parts.empty]

end ImpMachine.Linear.Nested
