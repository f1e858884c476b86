import ImpMachine.Assembly.Error
import ImpMachine.Code.Opcode

/-!
# Register allocation

Which name or temporary holds each register while code is lowered. A new holder always takes the
lowest free register. Names bound inside a block are freed when the block closes; temporaries are
freed by hand; registers that a finished function body used stay reserved, so that code lowered
later never shares them. A request that fails changes nothing.
-/

namespace ImpMachine

/-- A register of the machine. -/
abbrev Register := Fin registerCount

/-- The operand byte of a register. -/
def Register.byte (r : Register) : UInt8 := UInt8.ofNat r.val

/-- What holds a register. -/
inductive Holder where
  | named (name : String)
  | temporary
  | reserved
  deriving DecidableEq

/-- The holder as messages write it. -/
def Holder.text : Holder → String
  | .named name => name
  | .temporary => "<temp>"
  | .reserved => "<reserved>"

/-- The state of register allocation. -/
structure RegisterMap where
  /-- The holder of each register. -/
  holders : Vector (Option Holder) registerCount
  /-- The names first bound in each open block, innermost block first. -/
  frames : List (List String)
  /-- The registers taken since the marks were last cleared. -/
  touched : Vector Bool registerCount

/-- A request to the register map, which may fail. -/
abbrev Allocation := StateT RegisterMap (Except AssembleError)

/-- The register of a name, and whether the name took it just now. -/
structure Binding where
  register : Register
  fresh : Bool

namespace RegisterMap

/-- All registers free and no block open. -/
def empty : RegisterMap :=
  ⟨Vector.replicate _ none, [], Vector.replicate _ false⟩

/-! ## Looking -/

/-- The lowest register whose holder satisfies the condition. -/
def find? (registers : RegisterMap) (condition : Option Holder → Bool) : Option Register :=
  (List.finRange registerCount).find? fun r => condition registers.holders[r]

/-- The register of a name. -/
def lookup (registers : RegisterMap) (name : String) : Option Register :=
  registers.find? (· == some (.named name))

/-- The lowest free register. -/
def firstFree? (registers : RegisterMap) : Option Register :=
  registers.find? Option.isNone

/-- The held registers and their holders. -/
def describe (registers : RegisterMap) : String :=
  let parts := (List.finRange registerCount).filterMap fun r =>
    registers.holders[r].map fun holder => holder.text ++ s!"=r{r.val}"
  ", ".intercalate parts

/-! ## Taking -/

/-- The map after `holder` took a register. -/
def take (registers : RegisterMap) (r : Register) (holder : Holder) : RegisterMap :=
  { registers with
    holders := registers.holders.set r (some holder)
    touched := registers.touched.set r true }

/-- Takes the lowest free register. The purpose is named if there is none. -/
def occupy (purpose : String) (holder : Holder) : Allocation Register := fun registers =>
  match registers.firstFree? with
  | some r => .ok (r, registers.take r holder)
  | none => .error (.noFreeRegister purpose registers.describe)

/-- The register of a name. A name that has none takes one and keeps it beyond the open block. -/
def bindGlobal (name : String) : Allocation Binding := fun registers =>
  match registers.lookup name with
  | some r => .ok (⟨r, false⟩, registers)
  | none => (occupy name (.named name) registers).map fun (r, registers) => (⟨r, true⟩, registers)

/-- Notes that a name was first bound in the innermost open block. -/
def noteInFrame (registers : RegisterMap) (name : String) : RegisterMap :=
  match registers.frames with
  | [] => registers
  | frame :: outer => { registers with frames := (name :: frame) :: outer }

/-- The register of a name. A name that has none takes one until the innermost open block closes. -/
def bind (name : String) : Allocation Binding := fun registers =>
  (bindGlobal name registers).map fun (binding, registers) =>
    (binding, if binding.fresh then registers.noteInFrame name else registers)

/-- Takes a register for an intermediate value. -/
def temp : Allocation Register :=
  occupy "temporary" .temporary

/-! ## Freeing -/

/-- The map after a register was freed. -/
def free (registers : RegisterMap) (r : Register) : RegisterMap :=
  { registers with holders := registers.holders.set r none }

/-- Frees a temporary. Other registers, and numbers of no register, are left alone. -/
def release (registers : RegisterMap) (number : Nat) : RegisterMap :=
  if h : number < registerCount then
    if registers.holders[number] = some .temporary then registers.free ⟨number, h⟩ else registers
  else registers

/-- Frees several temporaries. -/
def releaseAll (registers : RegisterMap) (numbers : List Nat) : RegisterMap :=
  numbers.foldl release registers

/-- Opens a block. -/
def pushScope (registers : RegisterMap) : RegisterMap :=
  { registers with frames := [] :: registers.frames }

/-- Frees the register of a name, if it has one. -/
def unbind (registers : RegisterMap) (name : String) : RegisterMap :=
  match registers.lookup name with
  | some r => registers.free r
  | none => registers

/-- Closes the innermost open block and frees the names first bound in it. -/
def popScope (registers : RegisterMap) : RegisterMap :=
  match registers.frames with
  | [] => registers
  | frame :: outer => frame.foldl unbind { registers with frames := outer }

/-! ## Reserving -/

/-- Clears the marks of the registers taken so far. -/
def resetTouched (registers : RegisterMap) : RegisterMap :=
  { registers with touched := Vector.replicate _ false }

/-- Reserves every register that was taken since the marks were cleared and is free now, and
clears the marks. -/
def reserveTouched (registers : RegisterMap) : RegisterMap :=
  let holders := Vector.ofFn fun r : Register =>
    if registers.touched[r] && registers.holders[r].isNone then some .reserved
    else registers.holders[r]
  { registers with holders := holders }.resetTouched

end RegisterMap

end ImpMachine
