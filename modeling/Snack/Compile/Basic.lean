import Snack.Compile.Log
import Snack.Core.Dump
import Snack.Json.Render
import Snack.Parser.Stmt
import Snack.Pragma
import Snack.Tree.Dump
import Snack.Typing.Stmt

/-! From source text to the text of a script, or to the dump of what a phase on the way gives. The first
failure ends the compilation; what happened before it stays in the log. -/

namespace Snack

inductive Failure where
  | token (e : Token.Error)
  | parse (e : Parser.Error)
  | typing (e : Typing.Error)
  | dump (e : Core.DumpError)
  | script (e : Script.Error)

def Failure.message : Failure → String
  | token e => e.pos.label e.cause.message
  | parse e => e.pos.label e.cause.message
  | typing e => e.pos.label e.cause.message
  | dump e => e.message
  | script e => e.message

/-- A phase whose result can be asked for. -/
inductive Phase where
  | parse
  | analyze
  | optimize
  deriving DecidableEq

def Phase.name : Phase → String
  | parse => "parse"
  | analyze => "analyze"
  | optimize => "optimize"

def Phase.ofName? (s : String) : Option Phase :=
  [parse, analyze, optimize].find? fun p => p.name = s

namespace Compile

abbrev Run := EStateM Failure (List Event)

def note (events : List Event) : Run Unit := modify fun log => log ++ events

/-- A result or its failure. -/
def liftExcept {ε α : Type} (failure : ε → Failure) : Except ε α → Run α
  | .ok a => pure a
  | .error e => throw (failure e)

def parse (source : String) : Run Tree.Program := do
  let tokens ← liftExcept .token (Token.scan source)
  note [.tokenized tokens.length]
  liftExcept .parse (Parser.run tokens)

def analyze (tree : Tree.Program) : Run Core.Program := do
  let (result, st) := Typing.analyze tree
  note (st.dropped.map fun (kind, cls) => .dropped kind cls)
  let program ← liftExcept .typing result
  note [.analyzed program.statements.length]
  return program

def simplify (program : Core.Program) : Run Core.Program := do
  let result := Simplify.program program
  note ((Simplify.removals program).map .removed)
  note [.optimized program.statements.length result.statements.length]
  return result

def generate (mangling : Script.Mangling) (program : Core.Program) : Run String := do
  let (result, st) := Script.run mangling program
  note (st.names.map fun b => .mangled b.name b.text)
  let _ ← liftExcept .script result
  note [.emitted st.lines.size st.names.length]
  return st.text

def dump (program : Core.Program) : Run String := return (← liftExcept .dump program.dump).text

/-- The script for a source text, or the dump of a phase. With the optimizer off, the phase after it
still has what goes into it as its result. -/
def run (stopAt : Option Phase) (settings : Settings) (source : String) : Run String := do
  let settings := settings.adjusted source
  let tree ← parse source
  if stopAt = some .parse then return tree.toJson.text
  let analyzed ← analyze tree
  if stopAt = some .analyze then dump analyzed
  else
    let program ← if settings.optimize then simplify analyzed else pure analyzed
    if stopAt = some .optimize then dump program else generate settings.mangling program

end Compile

/-- The script for a source text. -/
def compile (settings : Settings) (source : String) : Except Failure String :=
  match Compile.run none settings source [] with
  | .ok script _ => .ok script
  | .error e _ => .error e

end Snack
