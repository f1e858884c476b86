import ImpMachine.Command.Session

/-!
# The command line

Reads the file, has the command plan its work, prints, writes and exits.
-/

namespace ImpMachine.Command

/-- The number of a system error, which some operations report negated. -/
def errorNumber (code : UInt32) : UInt32 :=
  min code (0 - code)

/-- The fault behind a failed file operation. -/
def faultOf : IO.Error → FileFault
  | .noFileOrDirectory .. => .notFound
  | e@(.inappropriateType _ code _) =>
    match errorNumber code with
    | 20 => .notDirectory
    | 21 => .isDirectory
    | _ => .other (toString e)
  | e@(.invalidArgument _ code _) =>
    if errorNumber code = 36 then .nameTooLong else .other (toString e)
  | e => .other (toString e)

/-- The content of a file. -/
def readFile (path : String) : IO (Except FileFault (List UInt8)) := do
  try
    return .ok (← IO.FS.readBinFile path).toList
  catch e => return .error (faultOf e)

/-- Writes a file. -/
def writeFile (path : String) (bytes : List UInt8) : IO (Except FileFault Unit) := do
  try
    IO.FS.writeBinFile path ⟨bytes.toArray⟩
    return .ok ()
  catch e => return .error (faultOf e)

/-- Prints everything and gives the exit code. -/
def finish (outcome : Outcome) : IO UInt32 := do
  (← IO.getStderr).putStr outcome.transcript.stderr
  (← IO.getStdout).putStr outcome.transcript.stdout
  return UInt32.ofNat outcome.exitCode

/-- How the command is called. -/
def usage : String :=
  "usage: [--tokens] [--ast] [--ir] [--disasm] [--hex] [--trace] [--verify] [--no-color]\n"
    ++ "       [-o FILE] [--max-steps N] FILE\n"

end ImpMachine.Command

open ImpMachine Command in
/-- Runs the command. -/
def main (args : List String) : IO UInt32 := do
  match readOptions args with
  | none =>
    (← IO.getStderr).putStr usage
    return 2
  | some options =>
    let colours ← (← IO.getStdout).isTty
    match plan options colours (← readFile options.file) with
    | .finish outcome => finish outcome
    | .save path image transcript =>
      let result ← writeFile path (image.toFile path)
      finish (afterSave options colours path image transcript result)
