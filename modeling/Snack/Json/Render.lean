import Snack.Json.Basic
import Snack.Number.Shortest

/-! The text of a value: two spaces for every level, each part on a line of its own. Strings hold every
character as it is but for quotes, backslashes and control characters. A float that is not finite has
no numeral and is written as a string. -/

namespace Snack.Json

/-- A hexadecimal digit, in lower case. -/
def hexDigit (n : Nat) : Char := if n < 10 then Char.ofNat (48 + n) else Char.ofNat (87 + n)

/-- A character inside quotes. -/
def escape (c : Char) : List Char :=
  match c with
  | '"' => ['\\', '"']
  | '\\' => ['\\', '\\']
  | '\n' => ['\\', 'n']
  | '\r' => ['\\', 'r']
  | '\t' => ['\\', 't']
  | '\x08' => ['\\', 'b']
  | '\x0c' => ['\\', 'f']
  | c =>
    if c.toNat < 32 then ['\\', 'u', '0', '0', hexDigit (c.toNat / 16), hexDigit (c.toNat % 16)]
    else [c]

def quoted (s : String) : List Char := '"' :: s.toList.flatMap escape ++ ['"']

def floatText (x : Float) : List Char :=
  match Number.unpack x with
  | .zero _ | .finite .. => (Shortest.text x).toList
  | _ => quoted (Shortest.text x)

/-- A line break and what comes behind the indentation. -/
def newLine (depth : Nat) (rest : List Char) : List Char := '\n' :: (List.replicate (2 * depth) ' ' ++ rest)

mutual

/-- The text of a value, in front of what follows it. -/
def render (depth : Nat) : Json → List Char → List Char
  | null, rest => 'n' :: 'u' :: 'l' :: 'l' :: rest
  | bool true, rest => 't' :: 'r' :: 'u' :: 'e' :: rest
  | bool false, rest => 'f' :: 'a' :: 'l' :: 's' :: 'e' :: rest
  | int n, rest => (toString n).toList ++ rest
  | float x, rest => floatText x ++ rest
  | str s, rest => quoted s ++ rest
  | arr [], rest => '[' :: ']' :: rest
  | arr (j :: items), rest =>
    '[' :: newLine (depth + 1) (render (depth + 1) j
      (renderItems (depth + 1) items (newLine depth (']' :: rest))))
  | obj [], rest => '\x7b' :: '\x7d' :: rest
  | obj ((key, j) :: fields), rest =>
    '\x7b' :: newLine (depth + 1) (quoted key ++ ':' :: ' ' :: render (depth + 1) j
      (renderFields (depth + 1) fields (newLine depth ('\x7d' :: rest))))

/-- The items after the first one. -/
def renderItems (depth : Nat) : List Json → List Char → List Char
  | [], rest => rest
  | j :: items, rest => ',' :: newLine depth (render depth j (renderItems depth items rest))

/-- The fields after the first one. -/
def renderFields (depth : Nat) : List (String × Json) → List Char → List Char
  | [], rest => rest
  | (key, j) :: fields, rest =>
    ',' :: newLine depth (quoted key ++ ':' :: ' ' :: render depth j (renderFields depth fields rest))

end

/-- The text of a value. -/
def text (j : Json) : String := String.ofList (j.render 0 [])

end Snack.Json
