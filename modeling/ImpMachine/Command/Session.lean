import ImpMachine.Assembly
import ImpMachine.Code.Verifier
import ImpMachine.Command.Options
import ImpMachine.Compilation
import ImpMachine.Image.File
import ImpMachine.Image.Listing
import ImpMachine.Linear.Reader
import ImpMachine.Machine.Report
import ImpMachine.Text.Style
import ImpMachine.Token.Dump
import ImpMachine.Tree.Outline

/-!
# The command

What the command does with its options and the content of its file: it builds the image, prints what
was asked for, and either runs the image or has it written to a file. The command itself reads and
writes nothing. It is given the content of its file, and its result says what to print, what to
write, and how to exit.
-/

namespace ImpMachine.Command

/-- What was printed. -/
structure Transcript where
  stdout : String
  stderr : String

/-- How the command ends. -/
structure Outcome where
  transcript : Transcript
  exitCode : Nat

/-- A part of the command, which prints and may end the command early. -/
abbrev Console := StateT Transcript (Except Outcome)

/-! ## Printing -/

/-- Ends the command. -/
def exit {α : Type} (code : Nat) : Console α := fun transcript => .error ⟨transcript, code⟩

/-- Prints a text. -/
def print (s : String) : Console Unit :=
  modify fun t => { t with stdout := t.stdout ++ s }

/-- Prints a line beside the results. -/
def report (colours : Bool) (style : Text.Style) (line : String) : Console Unit :=
  modify fun t => { t with stderr := t.stderr ++ Text.paintIf colours (some style) line ++ "\n" }

/-- Prints a remark. -/
def note (colours : Bool) (remark : String) : Console Unit :=
  report colours .dimmed ("note: " ++ remark)

/-- Ends the command with an error. -/
def fail {α : Type} (colours : Bool) (error : String) : Console α := do
  report colours .redBold error
  exit 1

/-- Ends the command if there is an error. -/
def orFail {ε α : Type} (colours : Bool) (message : ε → String) : Except ε α → Console α
  | .ok a => return a
  | .error e => fail colours (message e)

/-! ## Building -/

/-- The text in a file that was read, or was not. -/
def textOf (colours : Bool) (path : String) (content : Except FileFault (List UInt8)) :
    Console String :=
  let failed (reason : String) := fail colours ("failed to read '" ++ path ++ "': " ++ reason)
  match content with
  | .error fault => failed fault.message
  | .ok bytes =>
    match String.fromUTF8? ⟨bytes.toArray⟩ with
    | some text => return text
    | none => failed "stream did not contain valid UTF-8"

/-- Assembles linear code. -/
def buildCode (options : Options) (colours : Bool) (code : List Linear.Instr) : Console Image := do
  if options.has .ir then print (Linear.render code)
  orFail colours AssembleError.message (assemble code)

/-- Prints the preprocessed tokens and ends the command. -/
def showTokens {α : Type} (colours : Bool) (source : String) : Console α := do
  let (tokens, _) ← orFail colours SourceError.message (preprocess source)
  print (Token.dump ⟨true, colours⟩ tokens)
  exit 0

/-- Prints what was remarked while a source text was compiled. -/
def reportCompilation (colours : Bool) (compilation : Compilation) : Console Unit := do
  compilation.expansions.forM fun record => note colours ("expanded " ++ record.message)
  compilation.lints.forM fun lint => report colours .yellow lint.message
  compilation.diagnostics.forM fun diagnostic =>
    match diagnostic.severity with
    | .warning => report colours .yellow diagnostic.message
    | .note => note colours diagnostic.message

/-- Builds the image of a source text. -/
def buildSource (options : Options) (colours : Bool) (source : String) : Console Image := do
  if options.has .tokens then showTokens colours source
  let compilation ← orFail colours CompileError.message (compile source)
  reportCompilation colours compilation
  if options.has .ast then print (outlineProgram compilation.program ++ "\n")
  buildCode options colours compilation.code

/-- Builds the image of a listing of linear code. -/
def buildListing (options : Options) (colours : Bool) (listing : String) : Console Image := do
  let code ← orFail colours Linear.ListingError.message (Linear.readListing listing)
  if options.has .tokens || options.has .ast then
    note colours "--tokens and --ast need a .rex source; ignored"
  buildCode options colours code

/-- Builds the image of a file, whose extension says what it holds. -/
def build (options : Options) (colours : Bool) (content : Except FileFault (List UInt8)) :
    Console Image := do
  match (extension? options.file).getD "" with
  | "rex" => buildSource options colours (← textOf colours options.file content)
  | "ir" => buildListing options colours (← textOf colours options.file content)
  | "rxb" | "bin" => orFail colours ImageFileError.message (Image.load options.file content)
  | other =>
    fail colours
      ("expected a .rex, .ir or .rxb file, got '." ++ other ++ "' (" ++ options.file ++ ")")

/-! ## Using the image -/

/-- Prints what was asked for about an image. -/
def inspect (options : Options) (colours : Bool) (image : Image) : Console Unit := do
  if options.has .disasm then
    print ((← orFail colours DecodeError.message image.listing) ++ "\n")
  if options.has .hex then print (Image.hexDump image.code)
  if options.has .verify then
    orFail colours VerifyError.message (verify image.code)
    note colours "bytecode verified"

/-- Runs an image and prints its output. -/
def runImage (options : Options) (colours : Bool) (image : Image) : Console Unit := do
  let config := { RunConfig.default with
    maxSteps := options.maxSteps, trace := options.has .trace }
  let (session, ending) := Session.run config image.code
  session.trace.toList.forM fun event => report colours .dimmed event.text
  print session.machine.outputText
  match ending with
  | .halted => return
  | .unfinished => fail colours s!"run cut off after {session.steps} steps"
  | .faulted fault =>
    report colours .dimmed session.text
    fail colours fault.message

/-! ## The whole command -/

/-- What is left to do. -/
inductive Plan where
  | finish (outcome : Outcome)
  /-- A file is to be written, after which the command ends. -/
  | save (path : String) (image : Image) (transcript : Transcript)

/-- Whether colours are used, on a terminal that shows them or does not. -/
def usesColours (options : Options) (terminalColours : Bool) : Bool :=
  terminalColours && !options.has .noColor

/-- Everything the command does before it writes a file or ends. -/
def plan (options : Options) (terminalColours : Bool)
    (content : Except FileFault (List UInt8)) : Plan :=
  let colours := usesColours options terminalColours
  let work : Console Plan := do
    let image ← build options colours content
    inspect options colours image
    match options.output with
    | some path => return .save path image (← get)
    | none =>
      runImage options colours image
      return .finish ⟨← get, 0⟩
  match work.run' ⟨"", ""⟩ with
  | .ok plan => plan
  | .error outcome => .finish outcome

/-- How the command ends after a file was written, or was not. -/
def afterSave (options : Options) (terminalColours : Bool) (path : String) (image : Image)
    (transcript : Transcript) (result : Except FileFault Unit) : Outcome :=
  let colours := usesColours options terminalColours
  let work : Console Outcome := do
    match result with
    | .error fault => fail colours (ImageFileError.message (.file fault))
    | .ok () => note colours (s!"wrote {image.code.length} bytes to " ++ path)
    return ⟨← get, 0⟩
  match work.run' transcript with
  | .ok outcome | .error outcome => outcome

end ImpMachine.Command
