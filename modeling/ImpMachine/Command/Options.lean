import ImpMachine.Decimal.Integer

/-!
# Command-line options

One file, any of the flags at most once, an output file and a step limit. A value follows its option
or an equals sign; the value of `-o` may also follow at once. After `--` everything is a file name,
and so is a single `-`.
-/

namespace ImpMachine.Command

/-- The options that take no value. -/
inductive Flag where
  | tokens
  | ast
  | ir
  | disasm
  | hex
  | trace
  | verify
  | noColor
  deriving DecidableEq

/-- The name of each flag, without its dashes. -/
def Flag.names : List (String × Flag) :=
  [("tokens", .tokens), ("ast", .ast), ("ir", .ir), ("disasm", .disasm), ("hex", .hex),
    ("trace", .trace), ("verify", .verify), ("no-color", .noColor)]

/-- The options that take a value. -/
inductive Setting where
  | output
  | maxSteps
  deriving DecidableEq

/-- The name of each setting, without its dashes. -/
def Setting.names : List (String × Setting) :=
  [("output", .output), ("max-steps", .maxSteps)]

/-- The arguments read so far. -/
structure Arguments where
  files : List String
  flags : List Flag
  output : Option String
  maxSteps : Option Nat

/-- Nothing read yet. -/
def Arguments.empty : Arguments := ⟨[], [], none, none⟩

/-- A command line that was understood. -/
structure Options where
  file : String
  flags : List Flag
  output : Option String
  maxSteps : Option Nat

/-- Whether a flag was given. -/
def Options.has (options : Options) (flag : Flag) : Bool :=
  options.flags.contains flag

namespace Arguments

/-- Adds a file, whose name may not be empty. -/
def addFile (args : Arguments) (file : String) : Option Arguments :=
  if file.isEmpty then none else some { args with files := args.files ++ [file] }

/-- Adds a flag, which may not be there yet. -/
def addFlag (args : Arguments) (flag : Flag) : Option Arguments :=
  if args.flags.contains flag then none else some { args with flags := flag :: args.flags }

/-- Sets the value of a setting, which may not be there yet. -/
def set (args : Arguments) (setting : Setting) (value : String) : Option Arguments :=
  match setting with
  | .output =>
    if args.output.isSome || value.isEmpty then none
    else some { args with output := some value }
  | .maxSteps =>
    match args.maxSteps, Decimal.readCount value.toList with
    | none, .ok count => some { args with maxSteps := some count }
    | _, _ => none

end Arguments

/-- One argument, taken by itself. -/
inductive Argument where
  | file (name : String)
  | flag (flag : Flag)
  /-- A setting whose value is the next argument. -/
  | setting (setting : Setting)
  /-- A setting with its value. -/
  | assignment (setting : Setting) (value : String)
  /-- All that follows is a file name. -/
  | endOfOptions
  | unknown

/-- An argument after its two dashes. -/
def Argument.ofLong (cs : List Char) : Argument :=
  let name := String.ofList (cs.takeWhile (· ≠ '='))
  match cs.dropWhile (· ≠ '=') with
  | _ :: value =>
    match Setting.names.lookup name with
    | some s => .assignment s (String.ofList value)
    | none => .unknown
  | [] =>
    match Flag.names.lookup name, Setting.names.lookup name with
    | some f, _ => .flag f
    | none, some s => .setting s
    | none, none => .unknown

/-- What an argument says. -/
def Argument.ofString (s : String) : Argument :=
  match s.toList with
  | ['-', '-'] => .endOfOptions
  | '-' :: '-' :: cs => .ofLong cs
  | ['-', 'o'] => .setting .output
  | '-' :: 'o' :: '=' :: value => .assignment .output (String.ofList value)
  | '-' :: 'o' :: value => .assignment .output (String.ofList value)
  | '-' :: _ :: _ => .unknown
  | _ => .file s

/-- The argument can be the value of the setting before it. -/
def isValue (s : String) : Bool :=
  match Argument.ofString s with
  | .file _ => true
  | _ => false

/-- Reads arguments one after the other. -/
def readArguments (args : Arguments) : List String → Option Arguments
  | [] => some args
  | s :: rest =>
    match Argument.ofString s with
    | .file name => (args.addFile name).bind (readArguments · rest)
    | .flag flag => (args.addFlag flag).bind (readArguments · rest)
    | .assignment setting value => (args.set setting value).bind (readArguments · rest)
    | .setting setting =>
      match rest with
      | [] => none
      | value :: rest =>
        if isValue value then (args.set setting value).bind (readArguments · rest) else none
    | .endOfOptions => rest.foldlM Arguments.addFile args
    | .unknown => none

/-- The options of a command line, if it can be understood. -/
def readOptions (args : List String) : Option Options := do
  let args ← readArguments .empty args
  match args.files with
  | [file] => some ⟨file, args.flags, args.output, args.maxSteps⟩
  | _ => none

end ImpMachine.Command
