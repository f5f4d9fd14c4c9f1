import Snack.Number.Shortest

/-! Literals of the target language. A negative number is put in parentheses, since next to an operator
its sign would read as another one; an integer that no float can hold is an infinity. -/

namespace Snack.Script

def infinity (negative : Bool) : String := if negative then "(-Infinity)" else "Infinity"

def intLiteral (n : Int) : String :=
  if !Number.fits n then infinity (n < 0)
  else if n < 0 then "(" ++ toString n ++ ")"
  else toString n

def floatLiteral (x : Float) : String :=
  match Number.unpack x with
  | .infinity .positive => infinity false
  | .infinity .negative => infinity true
  | .finite .negative .. => "(" ++ Shortest.text x ++ ")"
  | _ => Shortest.text x

/-- Puts a text in the place of a character, wherever that stands. -/
def replace (c : Char) (text : String) (cs : List Char) : List Char :=
  cs.flatMap fun d => if d = c then text.toList else [d]

/-- The text between the quotes of a literal. Backslashes come first, since the others make new ones. -/
def escape (cs : List Char) : List Char :=
  replace '\r' "\\r" (replace '\t' "\\t" (replace '\n' "\\n" (replace '"' "\\\"" (replace '\\' "\\\\" cs))))

def stringLiteral (s : String) : String := String.ofList ('"' :: escape s.toList ++ ['"'])

end Snack.Script
