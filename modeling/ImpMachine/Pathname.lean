import ImpMachine.Text.Split

/-!
# Paths

A path is a row of names between slashes. Empty names count for nothing, `.` stands for the
directory it is in and `..` for the one above. A slash at the front starts the path at the root, and
a slash at the end says that the path means a directory.
-/

namespace ImpMachine

/-- A path taken apart. -/
structure Pathname where
  fromRoot : Bool
  names : List String
  endsInSlash : Bool
  deriving DecidableEq

namespace Pathname

/-- The parts of a path. -/
def ofString (path : String) : Pathname where
  fromRoot := path.toList.head? = some '/'
  names := ((Text.splitOn '/' path.toList).filter (· ≠ [])).map String.ofList
  endsInSlash := path.toList.getLast? = some '/'

/-- The name leads to a directory wherever it stands. -/
def isDots (name : String) : Bool :=
  name = "." || name = ".."

/-- The name of the file that a path means. A path that ends in `..` has none. -/
def fileName? (path : Pathname) : Option String :=
  (path.names.filter (· ≠ ".")).getLast?.filter (· ≠ "..")

/-- What follows the last dot of the file's name. A name whose only dot comes first has none. -/
def extension? (path : Pathname) : Option String := do
  let parts := Text.splitOn '.' (← path.fileName?).toList
  match parts with
  | [_] | [[], _] => none
  | _ => parts.getLast?.map String.ofList

end Pathname

/-- The extension of the file that a path means. -/
def extension? (path : String) : Option String :=
  (Pathname.ofString path).extension?

end ImpMachine
