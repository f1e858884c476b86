import ImpMachine.Image.Basic

/-!
# The container format

An image as bytes: a format version, the code after its length, and the symbols after their number,
each a name after its length and an address byte. Versions, lengths and numbers are written in
groups of seven bits, lowest first, with the top bit set on every byte but the last.

Reading takes any such encoding of a number within its width, ignores bytes after the image, and
lets a later symbol replace an earlier one of its name. The version is looked at after the whole
container was read.
-/

namespace ImpMachine

/-- The version that containers are written with. -/
def formatVersion : Nat := 1

/-- Why bytes are no container. -/
inductive ContainerFault where
  | endsEarly
  | badNumber
  | badName
  deriving DecidableEq

/-- The wording of each fault. -/
def ContainerFault.message : ContainerFault → String
  | .endsEarly => "Hit the end of buffer, expected more data"
  | .badNumber =>
    "Found a varint that didn't terminate. Is the usize too big for this platform?"
  | .badName => "Tried to parse invalid utf-8"

namespace Container

/-! ## Writing -/

/-- A number in groups of seven bits. -/
def writeNumber (n : Nat) : List UInt8 :=
  if n < 128 then [UInt8.ofNat n]
  else UInt8.ofNat (n % 128 + 128) :: writeNumber (n / 128)
termination_by n
decreasing_by omega

/-- Bytes after their length. -/
def writeBytes (bytes : List UInt8) : List UInt8 :=
  writeNumber bytes.length ++ bytes

/-- A symbol. -/
def writeSymbol (entry : String × UInt8) : List UInt8 :=
  writeBytes entry.1.toUTF8.toList ++ [entry.2]

/-! ## Reading -/

/-- The width of a number: how many bytes it may take and the largest value of the last of them. -/
structure NumberWidth where
  bytes : Nat
  lastMax : Nat

/-- The width of a version. -/
def versionWidth : NumberWidth := ⟨3, 3⟩

/-- The width of a length. -/
def lengthWidth : NumberWidth := ⟨10, 1⟩

/-- Reads a number of at most `left` bytes, and gives the bytes after it too, as every reader here
does. -/
def readGroups (lastMax : Nat) : Nat → List UInt8 → Except ContainerFault (Nat × List UInt8)
  | 0, _ => .error .badNumber
  | _ + 1, [] => .error .endsEarly
  | left + 1, b :: rest =>
    if b.toNat < 128 then
      if left = 0 ∧ lastMax < b.toNat then .error .badNumber else .ok (b.toNat, rest)
    else (readGroups lastMax left rest).map fun (high, rest) => (b.toNat - 128 + 128 * high, rest)

/-- Reads a number of the given width. -/
def readNumber (width : NumberWidth) (bytes : List UInt8) :
    Except ContainerFault (Nat × List UInt8) :=
  readGroups width.lastMax width.bytes bytes

/-- Reads bytes after their length. -/
def readBytes (bytes : List UInt8) : Except ContainerFault (List UInt8 × List UInt8) := do
  let (length, rest) ← readNumber lengthWidth bytes
  if rest.length < length then .error .endsEarly
  else .ok (rest.take length, rest.drop length)

/-- Reads a name after its length. -/
def readName (bytes : List UInt8) : Except ContainerFault (String × List UInt8) := do
  let (name, rest) ← readBytes bytes
  match String.fromUTF8? ⟨name.toArray⟩ with
  | some name => .ok (name, rest)
  | none => .error .badName

/-- Reads a symbol. -/
def readSymbol (bytes : List UInt8) : Except ContainerFault ((String × UInt8) × List UInt8) := do
  let (name, rest) ← readName bytes
  match rest with
  | addr :: rest => .ok ((name, addr), rest)
  | [] => .error .endsEarly

/-- Reads the given number of symbols into a table. -/
def readSymbols (table : Symbols) :
    Nat → List UInt8 → Except ContainerFault (Symbols × List UInt8)
  | 0, bytes => .ok (table, bytes)
  | count + 1, bytes => do
    let ((name, addr), rest) ← readSymbol bytes
    readSymbols (table.insert name addr) count rest

/-- Reads a container's version and image. -/
def read (bytes : List UInt8) : Except ContainerFault (Nat × Image) := do
  let (version, rest) ← readNumber versionWidth bytes
  let (code, rest) ← readBytes rest
  let (count, rest) ← readNumber lengthWidth rest
  let (symbols, _) ← readSymbols .empty count rest
  return (version, ⟨code, symbols⟩)

end Container

/-- Why a file holds no image. -/
inductive UnpackError where
  | malformed (fault : ContainerFault)
  | unsupportedVersion (found : Nat)
  deriving DecidableEq

/-- The wording of each error. -/
def UnpackError.message : UnpackError → String
  | .malformed fault => "malformed program file: " ++ fault.message
  | .unsupportedVersion found =>
    s!"unsupported program format version {found} (expected {formatVersion})"

namespace Image

/-- The container of an image. -/
def pack (image : Image) : List UInt8 :=
  Container.writeNumber formatVersion ++ Container.writeBytes image.code
    ++ Container.writeNumber image.symbols.entries.length
    ++ image.symbols.entries.flatMap Container.writeSymbol

/-- The image in a container. -/
def unpack (bytes : List UInt8) : Except UnpackError Image :=
  match Container.read bytes with
  | .error fault => .error (.malformed fault)
  | .ok (version, image) =>
    if version = formatVersion then .ok image else .error (.unsupportedVersion version)

end Image

end ImpMachine
