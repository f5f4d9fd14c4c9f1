import Snack.Script.Emit
import Snack.Simplify.Removal

/-! The log of a compilation: what happened, in order, and the lines that tell it. -/

namespace Snack.Compile

inductive Event where
  | read (characters : Nat)
  | tokenized (tokens : Nat)
  /-- A statement of a class body that is checked but not part of the class. -/
  | dropped (kind cls : String)
  | analyzed (statements : Nat)
  | removed (r : Simplify.Removal)
  | optimized (before after : Nat)
  | mangled (name text : String)
  | emitted (lines names : Nat)
  deriving DecidableEq

namespace Event

/-- The part of the compiler that an event comes from. -/
def origin : Event → String
  | read _ => "snackscript.cli"
  | tokenized _ => "snackscript.frontend.parse"
  | dropped .. | analyzed _ => "snackscript.frontend.analyze"
  | removed _ | optimized .. => "snackscript.middleend.optimize"
  | mangled .. | emitted .. => "snackscript.backend.javascript"

def place (p : Pos) : String := "Loc(line=" ++ toString p.line ++ ", col=" ++ toString p.col ++ ")"

def removal : Simplify.Removal → String
  | .selfAssignment p => "self-assignment at " ++ place p
  | .whileFalse p => "while-false loop at " ++ place p
  | .emptyRange p => "empty range loop at " ++ place p
  | .emptyArray p => "loop over empty array at " ++ place p
  | .deadBranch p => "dead branch at " ++ place p

def message : Event → String
  | read n => "read " ++ toString n ++ " characters"
  | tokenized n => "tokenized " ++ toString n ++ " tokens"
  | dropped kind cls => "dropped " ++ kind ++ " statement from class " ++ cls
  | analyzed n => "analyzed " ++ toString n ++ " top-level statements"
  | removed r => "removed " ++ removal r
  | optimized before after =>
    "optimized program: " ++ toString before ++ " -> " ++ toString after ++ " top-level statements"
  | mangled name text => "mangled " ++ name ++ " -> " ++ text
  | emitted lines names =>
    "emitted " ++ toString lines ++ " lines, " ++ toString names ++ " mangled names"

def line (e : Event) : String := "DEBUG " ++ e.origin ++ ": " ++ e.message ++ "\n"

end Event

/-- The lines that tell a list of events. -/
def logText (events : List Event) : String := String.join (events.map Event.line)

end Snack.Compile
