import ImpMachine.Expansion.Engine
import ImpMachine.Linear.Generate
import ImpMachine.Token.Lexer
import ImpMachine.Token.Lint
import ImpMachine.Tree.Parser

/-!
# Compiling a source text

The stages up to linear code: lexing, preprocessing, parsing and lowering. Nothing here fails but
lexing, preprocessing and parsing; everything else is reported beside the result.
-/

namespace ImpMachine

/-- Why a source text has no linear code. -/
inductive CompileError where
  | source (error : SourceError)
  | parse (error : ParseError)
  deriving DecidableEq

/-- The stage that failed and its own message. -/
def CompileError.message : CompileError → String
  | .source error => "lex error: " ++ error.message
  | .parse error => "parse error: " ++ error.message

/-- A compiled source text, with the results of every stage. -/
structure Compilation where
  tokens : List Token
  program : List Stmt
  code : List Linear.Instr
  diagnostics : List Linear.Diagnostic
  lints : List Lint
  expansions : List Expansion.Record

/-- The preprocessed tokens of a source text, and the expansions made. -/
def preprocess (source : String) :
    Except SourceError (List Token × List Expansion.Record) :=
  match tokenize source with
  | .error e => .error e
  | .ok tokens =>
    match Engine.empty.process tokens with
    | (_, .error e) => .error e
    | (engine, .ok tokens) => .ok (tokens, engine.trace.toList)

/-- Compiles a source text to linear code. -/
def compile (source : String) : Except CompileError Compilation :=
  match preprocess source with
  | .error e => .error (.source e)
  | .ok (tokens, expansions) =>
    match parseProgram tokens with
    | .error e => .error (.parse e)
    | .ok program =>
      let generated := Linear.generate program
      .ok ⟨tokens, program, generated.code, generated.diagnostics, Lint.check tokens,
        expansions⟩

end ImpMachine
