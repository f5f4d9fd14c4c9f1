import Snack.Script.Emit
import Snack.Text.Blank
import Snack.Token.Scan

/-! Settings of a compilation and the comments that change them. Such a comment has a line to itself and
stands in front of all code, with only blank lines and other line comments before it. -/

namespace Snack

/-- How a program is compiled. -/
structure Settings where
  optimize : Bool
  mangling : Script.Mangling
  deriving DecidableEq

inductive Pragma where
  | noOptimize
  | mangleByName
  deriving DecidableEq

namespace Pragma

def text : Pragma → String
  | noOptimize => "pragma no-optimize"
  | mangleByName => "pragma mangle-by-name"

def ofText? (cs : List Char) : Option Pragma :=
  [noOptimize, mangleByName].find? fun p => p.text.toList = cs

/-- The pragmas in lines of text. -/
def ofLines : List (List Char) → List Pragma
  | [] => []
  | line :: lines =>
    match Text.strip line with
    | [] => ofLines lines
    | c :: body =>
      if c = Token.lineComment then (ofText? (Text.strip body)).toList ++ ofLines lines else []

/-- The pragmas of a source text. -/
def ofSource (source : String) : List Pragma := ofLines (source.toList.splitOn '\n')

/-- A pragma can only turn a default off. -/
def apply (s : Settings) : Pragma → Settings
  | noOptimize => { s with optimize := false }
  | mangleByName => { s with mangling := .byName }

end Pragma

/-- The settings for a source text: those given, changed by its pragmas. -/
def Settings.adjusted (s : Settings) (source : String) : Settings := (Pragma.ofSource source).foldl Pragma.apply s

end Snack
