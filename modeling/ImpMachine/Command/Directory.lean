import ImpMachine.Command.Session

/-!
# A directory of files

A directory without subdirectories, kept in memory, and the command at work in it.
-/

namespace ImpMachine.Command

/-- The files of a directory by name. -/
structure Directory where
  files : List (String × List UInt8)

namespace Directory

/-- A directory without files. -/
def empty : Directory := ⟨[]⟩

/-- The content of a file. -/
def get? (dir : Directory) (name : String) : Option (List UInt8) :=
  dir.files.lookup name

/-- The directory with a file's content set. -/
def set (dir : Directory) (name : String) (bytes : List UInt8) : Directory :=
  ⟨(name, bytes) :: dir.files.filter (·.1 ≠ name)⟩

/-! ## Following paths

A path starts in the directory, or at the root if it says so. Nothing is known of the directories
outside, so no file is found there and none can be written. -/

/-- How far a path has led: to the directory, or to one outside it. -/
inductive Spot where
  | here
  | outside

/-- The most bytes that a name can have. -/
def maxNameLength : Nat := 255

/-- The most bytes that a path can have. -/
def maxPathLength : Nat := 4095

/-- The content of the file of a name, if there is one. -/
def lookup (dir : Directory) (spot : Spot) (name : String) :
    Except FileFault (Option (List UInt8)) :=
  if maxNameLength < name.utf8ByteSize then .error .nameTooLong
  else
    match spot with
    | .here => .ok (dir.get? name)
    | .outside => .ok none

/-- Goes on to a name with more names behind it, which has to be a directory. -/
def enter (dir : Directory) (spot : Spot) (name : String) : Except FileFault Spot := do
  if name = "." then return spot
  else if name = ".." then return .outside
  else
    match ← dir.lookup spot name with
    | some _ => .error .notDirectory
    | none => .error .notFound

/-- What a path leads to before its last name is looked up. -/
inductive Target where
  | directory
  | entry (spot : Spot) (name : String)
  /-- A name with a slash behind it. -/
  | closedEntry (spot : Spot) (name : String)

/-- Follows a path up to its last name. -/
def follow (dir : Directory) (path : String) : Except FileFault Target := do
  if path.toList.contains '\x00' then .error .nulInName
  else if maxPathLength < path.utf8ByteSize then .error .nameTooLong
  else
    let parts := Pathname.ofString path
    let start := if parts.fromRoot then Spot.outside else Spot.here
    let spot ← parts.names.dropLast.foldlM dir.enter start
    match parts.names.getLast? with
    | none => return .directory
    | some name =>
      if Pathname.isDots name then return .directory
      else if parts.endsInSlash then return .closedEntry spot name
      else return .entry spot name

/-! ## Reading and writing -/

/-- Reads a file. With a slash behind its name it is asked for as a directory, which it is not. -/
def read (dir : Directory) (path : String) : Except FileFault (List UInt8) := do
  match ← dir.follow path with
  | .directory => .error .isDirectory
  | .entry spot name =>
    match ← dir.lookup spot name with
    | some bytes => return bytes
    | none => .error .notFound
  | .closedEntry spot name =>
    match ← dir.lookup spot name with
    | some _ => .error .notDirectory
    | none => .error .notFound

/-- Writes a file. With a slash behind its name it would be a directory, whether it is there or
not. -/
def write (dir : Directory) (path : String) (bytes : List UInt8) : Except FileFault Directory := do
  match ← dir.follow path with
  | .directory | .closedEntry _ _ => .error .isDirectory
  | .entry spot name =>
    let _ ← dir.lookup spot name
    match spot with
    | .here => return dir.set name bytes
    | .outside => .error .notFound

/-- The files that are new or changed since the directory was `before`. -/
def changesSince (dir before : Directory) : List (String × List UInt8) :=
  dir.files.filter fun (name, bytes) => before.get? name ≠ some bytes

/-- Saves an image to a file. -/
def saveImage (dir : Directory) (path : String) (image : Image) :
    Except ImageFileError Directory :=
  match dir.write path (image.toFile path) with
  | .ok dir => .ok dir
  | .error fault => .error (.file fault)

/-- Loads an image from a file. -/
def loadImage (dir : Directory) (path : String) : Except ImageFileError Image :=
  Image.load path (dir.read path)

/-- The command in a directory: how it ends, and the directory afterwards. A command line that is
not understood has no result. -/
def runCommand (dir : Directory) (terminalColours : Bool) (args : List String) :
    Option (Outcome × Directory) := do
  let options ← readOptions args
  match plan options terminalColours (dir.read options.file) with
  | .finish outcome => return (outcome, dir)
  | .save path image transcript =>
    match dir.write path (image.toFile path) with
    | .ok dir => return (afterSave options terminalColours path image transcript (.ok ()), dir)
    | .error fault =>
      return (afterSave options terminalColours path image transcript (.error fault), dir)

end Directory

end ImpMachine.Command
