import ImpMachine.Assembly.Buffer
import ImpMachine.Assembly.Functions
import ImpMachine.Assembly.Sequence

/-!
# Loading operands

The code that leaves an operand's value in a register. The two sides of an operator are evaluated
from left to right, and both before the operator. Arguments of a call go to the fixed registers of
the callee's parameters: one argument goes there at once, several first to temporaries, so that
none is overwritten while another is still to be evaluated.

Code is a list of pieces. A piece is an instruction, together with what its last byte waits for if
that is not known yet.
-/

namespace ImpMachine.Assembly

/-- An instruction to be written. -/
structure Piece where
  instruction : Instruction
  fixup : Option FixupKind

/-- Instructions that wait for nothing. -/
def plain (instructions : List Instruction) : List Piece :=
  instructions.map (⟨·, none⟩)

/-! ## Names -/

/-- The name under which a function's own variable holds a register. -/
def qualified (function name : String) : String := function ++ "::" ++ name

/-- The name under which the last returned value holds a register. -/
def returnName : String := "$ret"

/-- A function being lowered, and the names that are its own so far. -/
structure Scope where
  function : String
  locals : List String

/-- What is known of the functions of the program. -/
structure FunctionTable where
  /-- The parameters of every function. -/
  signatures : Signatures
  /-- The addresses of the functions, as far as they are known. -/
  addresses : List (String × Nat)

/-- What operands are lowered in. -/
structure Environment extends FunctionTable where
  /-- The function being lowered. Top-level code has none. -/
  scope : Option Scope

/-- The name under which a variable holds a register: a function's own variables are qualified by
its name, all others are shared. -/
def Environment.key (env : Environment) (name : String) : String :=
  match env.scope with
  | none => name
  | some scope => if scope.locals.contains name then qualified scope.function name else name

/-! ## Reading variables and constants -/

/-- Code that leaves a value in the register that it is given. -/
abbrev Load := Register → Allocation (List Piece)

/-- Frees temporaries. -/
def release (registers : List Register) : Allocation Unit :=
  modify (·.releaseAll (registers.map Fin.val))

/-- The register of a variable, and the code to run before it is read. Top-level code sets a
variable to zero that has no register yet; in a function it is a variable of the top level. -/
def readVariable (env : Environment) (name : String) : Allocation (Register × List Piece) := do
  let key := env.key name
  match (← get).lookup key with
  | some r => return (r, [])
  | none =>
    let binding ← RegisterMap.bind key
    return (binding.register, if env.scope.isNone then plain [mov binding.register 0] else [])

/-- The word that a constant stands for, if it is whole and in range. -/
def word? : Number → Option Int64
  | .int v => some v
  | .float x => if Decimal.isWhole x && x.abs < 9.0e18 then some x.toInt64 else none

/-- The immediate that a constant stands for, if it fits a source operand. -/
def immediate? (n : Number) : Option UInt8 :=
  match word? n with
  | some v =>
    if 0 ≤ v.toInt ∧ v.toInt ≤ maxSourceImmediate then some (UInt8.ofNat v.toInt.toNat) else none
  | none => none

/-- A value ready to be used: the code to run first, where the value then is, and the temporary to
be released after use. -/
structure Fetched (α : Type) where
  code : List Piece
  place : α
  temporaries : List Register

/-- Loads a value into a temporary. -/
def viaTemporary (load : Load) : Allocation (Fetched Register) := do
  let t ← RegisterMap.temp
  return ⟨← load t, t, [t]⟩

/-- A register with an operand's value: a variable's own register, or a temporary. -/
def fetchRegister (env : Environment) (operand : Operand) (load : Load) :
    Allocation (Fetched Register) := do
  match operand with
  | .var name =>
    let (r, code) ← readVariable env name
    return ⟨code, r, []⟩
  | _ => viaTemporary load

/-- A source operand with an operand's value: small constants are immediates. -/
def fetch (env : Environment) (operand : Operand) (load : Load) :
    Allocation (Fetched Source) := do
  match operand.number?.bind immediate? with
  | some v => return ⟨[], .imm v, []⟩
  | none =>
    let fetched ← fetchRegister env operand load
    return ⟨fetched.code, regSource fetched.place, fetched.temporaries⟩

/-! ## Operators -/

/-- The code of a comparison `a < b`. -/
def compareLess (dst : Register) (a b : Source) : Allocation (List Instruction) := do
  let e ← RegisterMap.temp
  let t ← RegisterMap.temp
  release [e, t]
  return lessThan dst e t a b

/-- The code of a negated comparison `a < b`. -/
def compareNot (dst : Register) (a b : Source) : Allocation (List Instruction) := do
  let q ← RegisterMap.temp
  let code ← compareLess q a b
  release [q]
  return code ++ [arith .sub dst (.imm 1) (regSource q)]

/-- The code of a test whether `a` and `b` are equal. -/
def compareEqual (dst : Register) (a b : Source) (same differ : UInt8) :
    Allocation (List Instruction) := do
  let d ← RegisterMap.temp
  release [d]
  return arith .sub d a b :: choose dst d same differ

/-- The code of an operator whose sides are ready. -/
def operate (op : BinaryOp) (dst : Register) (a b : Source) : Allocation (List Instruction) :=
  match op with
  | .add => return [arith .add dst a b]
  | .sub => return [arith .sub dst a b]
  | .mul => return [arith .mul dst a b]
  | .div => return [arith .div dst a b]
  | .mod => do
    let q ← RegisterMap.temp
    release [q]
    return remainder dst q a b
  | .lt => compareLess dst a b
  | .gt => compareLess dst b a
  | .ltEq => compareNot dst b a
  | .gtEq => compareNot dst a b
  | .eq => compareEqual dst a b 1 0
  | .notEq => compareEqual dst a b 0 1

/-- The code of a logical operator whose sides are in registers. -/
def combine : LogicalOp → Register → Register → Register → List Instruction
  | .and => conjunction
  | .or => disjunction

/-! ## Calls -/

/-- The call itself. The address is filled in later if it is not known yet. -/
def callPiece (env : Environment) (callee : String) : Except AssembleError Piece :=
  match env.addresses.lookup callee with
  | none => .ok ⟨.call 0, some (.call callee)⟩
  | some address =>
    if maxAddress < address then .error (.functionTooFar callee address)
    else .ok ⟨.call (UInt8.ofNat address), none⟩

/-- Loads each argument into a temporary of its own. -/
def loadTemporaries : List Load → Allocation (List (Fetched Register))
  | [] => return []
  | load :: rest => do
    let fetched ← viaTemporary load
    return fetched :: (← loadTemporaries rest)

/-- Loads arguments into the registers of the parameters. -/
def loadArguments (targets : List Register) (args : List Load) : Allocation (List Piece) :=
  match args, targets with
  | [arg], [target] => arg target
  | args, targets => do
    let fetched ← loadTemporaries args
    release (fetched.map (·.place))
    return fetched.flatMap (·.code)
      ++ plain (List.zipWith (fun target f => copy target f.place) targets fetched)

/-- The registers of a function's parameters. -/
def parameterRegisters (function : String) : List String → Allocation (List Register)
  | [] => return []
  | param :: rest => do
    let binding ← RegisterMap.bindGlobal (qualified function param)
    return binding.register :: (← parameterRegisters function rest)

/-- A call with its arguments. A call of no declared function does not evaluate them. -/
def callCode (env : Environment) (callee : String) (args : List Load) :
    Allocation (List Piece) := do
  let passing ← match env.signatures.lookup callee with
    | none => pure []
    | some params =>
      if params.length = args.length then do
        let targets ← parameterRegisters callee params
        loadArguments targets args
      else throw (.wrongArity callee params.length args.length)
  return passing ++ [← callPiece env callee]

/-! ## Operands -/

mutual

/-- The code that leaves an operand's value in a register. -/
def load (env : Environment) : Operand → Load
  | .number n, dst =>
    match word? n with
    | some v => return plain (loadConstant dst v)
    | none => throw (.unsupported (Operand.number n).render .notInteger)
  | .text s, _ => throw (.unsupported (Operand.text s).render .isText)
  | .var name, dst => do
    let (r, code) ← readVariable env name
    return code ++ plain [copy dst r]
  | .binary op lhs rhs, dst => do
    let a ← fetch env lhs (load env lhs)
    let b ← fetch env rhs (load env rhs)
    let code ← operate op dst a.place b.place
    release (a.temporaries ++ b.temporaries)
    return a.code ++ b.code ++ plain code
  | .unary .neg operand, dst => do
    let a ← fetch env operand (load env operand)
    release a.temporaries
    return a.code ++ plain [arith .sub dst (.imm 0) a.place]
  | .unary .not operand, dst => do
    let a ← viaTemporary (load env operand)
    release a.temporaries
    return a.code ++ plain (choose dst a.place 1 0)
  | .logical op lhs rhs, dst => do
    let a ← viaTemporary (load env lhs)
    let b ← viaTemporary (load env rhs)
    release (a.temporaries ++ b.temporaries)
    return a.code ++ b.code ++ plain (combine op dst a.place b.place)
  | .call callee args, dst => do
    let code ← callCode env callee (loads env args)
    let result ← RegisterMap.bindGlobal returnName
    return code ++ plain [copy dst result.register]

/-- The code of each operand of a list. -/
def loads (env : Environment) : List Operand → List Load
  | [] => []
  | operand :: rest => load env operand :: loads env rest

end

end ImpMachine.Assembly
