import ImpMachine.Image.Container
import ImpMachine.Pathname

/-!
# Image files

An image is kept in a file in one of two forms, told apart by the file's extension: `bin` files
hold the code alone, all others the container.
-/

namespace ImpMachine

/-- Why a file could not be read or written. -/
inductive FileFault where
  | notFound
  | notDirectory
  | isDirectory
  | nameTooLong
  /-- A character that no name can hold. -/
  | nulInName
  /-- Any other fault, in the system's words. -/
  | other (text : String)
  deriving DecidableEq

/-- The wording of each fault. -/
def FileFault.message : FileFault → String
  | .notFound => "No such file or directory (os error 2)"
  | .notDirectory => "Not a directory (os error 20)"
  | .isDirectory => "Is a directory (os error 21)"
  | .nameTooLong => "File name too long (os error 36)"
  | .nulInName => "file name contained an unexpected NUL byte"
  | .other text => text

/-- Why no image could be read from a file or written to it. -/
inductive ImageFileError where
  | file (fault : FileFault)
  | unpack (error : UnpackError)
  deriving DecidableEq

/-- The wording of each error. -/
def ImageFileError.message : ImageFileError → String
  | .file fault => "i/o error: " ++ fault.message
  | .unpack error => error.message

namespace Image

/-- Files of this name hold code alone. -/
def isRaw (path : String) : Bool :=
  extension? path = some "bin"

/-- What a file of the given name holds for an image. -/
def toFile (image : Image) (path : String) : List UInt8 :=
  if isRaw path then image.code else image.pack

/-- The image that a file of the given name holds. -/
def ofFile (path : String) (bytes : List UInt8) : Except UnpackError Image :=
  if isRaw path then .ok (ofCode bytes) else unpack bytes

/-- The image in a file that was read, or was not. -/
def load (path : String) (content : Except FileFault (List UInt8)) :
    Except ImageFileError Image :=
  match content with
  | .error fault => .error (.file fault)
  | .ok bytes =>
    match ofFile path bytes with
    | .ok image => .ok image
    | .error e => .error (.unpack e)

end Image

end ImpMachine
