import Snack.Compile.Basic

/-! The arguments of the command line. They may come in any order, and of an option that is given twice
the last one counts. -/

namespace Snack.Command

structure Options where
  stopAt : Option Phase
  optimize : Bool
  mangling : Script.Mangling
  verbose : Bool
  input : Option String
  output : Option String
  deriving DecidableEq

/-- A reason to end at once. -/
inductive Stop where
  | help
  | missingArgument (flag : String)
  | unknownFlag (flag : String)
  | unexpectedArgument (arg : String)
  | unknownPhase (name : String)
  deriving DecidableEq

def usage : String :=
  "snackscript [OPTIONS] [INPUT] [-o OUTPUT]\n" ++
  "\n" ++
  "Options:\n" ++
  "  --stop-at PHASE     Stop after phase and print it as JSON: parse, analyze,\n" ++
  "                      optimize\n" ++
  "  --no-optimize       Skip the optimizer\n" ++
  "  --mangle-by-name    Number identifiers by source name instead of by\n" ++
  "                      declaration\n" ++
  "  -v, --verbose       Log pipeline progress to stderr\n" ++
  "  -o, --output FILE   Write output to FILE instead of stdout\n" ++
  "  --help              Show this help message\n"

def errorLine (message : String) : String := "error: " ++ message ++ "\n"

namespace Stop

/-- What goes to the standard output. -/
def stdout : Stop → String
  | help => usage
  | _ => ""

/-- What goes to the error output. -/
def stderr : Stop → String
  | help => ""
  | missingArgument flag => errorLine (flag ++ " requires an argument")
  | unknownFlag flag => errorLine ("unknown flag '" ++ flag ++ "'")
  | unexpectedArgument arg => errorLine ("unexpected argument '" ++ arg ++ "'")
  | unknownPhase name => errorLine ("unknown phase '" ++ name ++ "'")

def code : Stop → Nat
  | help => 0
  | _ => 2

end Stop

/-! ### Reading -/

/-- Options while arguments are read. The phase is looked at when all of them are known. -/
structure Draft where
  stopAt : Option String
  optimize : Bool
  mangling : Script.Mangling
  verbose : Bool
  input : Option String
  output : Option String
  deriving DecidableEq

/-- What holds without arguments. -/
def Draft.initial : Draft := ⟨none, true, .byEntity, false, none, none⟩

def Draft.finish (p : Draft) : Except Stop Options :=
  match p.stopAt with
  | none => .ok ⟨none, p.optimize, p.mangling, p.verbose, p.input, p.output⟩
  | some name =>
    match Phase.ofName? name with
    | some phase => .ok ⟨some phase, p.optimize, p.mangling, p.verbose, p.input, p.output⟩
    | none => .error (.unknownPhase name)

/-- An argument that is no option of its own. -/
def Draft.positional (p : Draft) (arg : String) : Except Stop Draft :=
  if arg.toList.head? = some '-' then .error (.unknownFlag arg)
  else if p.input.isSome then .error (.unexpectedArgument arg)
  else .ok { p with input := some arg }

/-- Adds arguments to what is known. -/
def Draft.read (p : Draft) : List String → Except Stop Draft
  | [] => .ok p
  | "--help" :: _ | "-h" :: _ => .error .help
  | ["--stop-at"] => .error (.missingArgument "--stop-at")
  | "--stop-at" :: name :: args => Draft.read { p with stopAt := some name } args
  | ["-o"] => .error (.missingArgument "-o")
  | ["--output"] => .error (.missingArgument "--output")
  | "-o" :: file :: args | "--output" :: file :: args => Draft.read { p with output := some file } args
  | "--no-optimize" :: args => Draft.read { p with optimize := false } args
  | "--mangle-by-name" :: args => Draft.read { p with mangling := .byName } args
  | "-v" :: args | "--verbose" :: args => Draft.read { p with verbose := true } args
  | arg :: args =>
    match p.positional arg with
    | .ok p => p.read args
    | .error stop => .error stop

/-- The options that arguments stand for. -/
def Options.ofArgs (args : List String) : Except Stop Options :=
  match Draft.initial.read args with
  | .ok p => p.finish
  | .error stop => .error stop

def Options.settings (o : Options) : Settings := ⟨o.optimize, o.mangling⟩

end Snack.Command
