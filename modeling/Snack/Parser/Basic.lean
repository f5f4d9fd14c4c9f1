import Snack.Token.Basic

/-! Reading a list of tokens from its front. A parser gives a value or the cause of its failure, and in
both cases the tokens that it has left. The last token of a list marks its end and is never passed. -/

namespace Snack.Parser

/-! ### Failures -/

/-- What stands where something else was expected. -/
inductive Found where
  | endOfInput
  | stringLiteral
  | text (s : String)
  deriving DecidableEq

def Found.ofToken (t : Token) : Found :=
  match t.kind with
  | .eof => endOfInput
  | .string => stringLiteral
  | _ => text t.text

def Found.describe : Found → String
  | endOfInput => "end of input"
  | stringLiteral => "string literal"
  | text s => "'" ++ s ++ "'"

inductive Wanted where
  | text (s : String)
  | identifier | type | collection | statement | expression
  deriving DecidableEq

def Wanted.describe : Wanted → String
  | text s => "'" ++ s ++ "'"
  | identifier => "identifier"
  | type => "type"
  | collection => "collection literal"
  | statement => "statement"
  | expression => "expression"

inductive Cause where
  | expected (wanted : Wanted) (found : Found)
  | unterminatedBlock
  | severalIterators
  | invalidTarget
  | notAStatement
  /-- There is no token left to look at, not even the one that marks the end. -/
  | exhausted
  deriving DecidableEq

def Cause.message : Cause → String
  | expected wanted found => "expected " ++ wanted.describe ++ ", got " ++ found.describe
  | unterminatedBlock => "unterminated block, expected ';'"
  | severalIterators => "range loop takes a single iterator"
  | invalidTarget => "invalid assignment target"
  | notAStatement => "expression is not a statement"
  | exhausted => "list index out of range"

abbrev Error := Located Cause

end Parser

/-- A reader of tokens. -/
abbrev Parser := EStateM Parser.Error (List Token)

namespace Parser

/-! ### Single tokens -/

/-- The token in front. -/
def current : Parser Token
  | t :: ts => .ok t (t :: ts)
  | [] => .error ⟨.exhausted, .unknown⟩ []

/-- The token `n` places ahead, or the last one. -/
def peek (n : Nat) : Parser Token := fun ts => .ok (ts.getD n (ts.getLastD default)) ts

/-- Takes the token in front, unless it is the last one. -/
def advance : Parser Token
  | t :: ts => .ok t (if t.kind = .eof then t :: ts else ts)
  | [] => .error ⟨.exhausted, .unknown⟩ []

/-- Fails at a place. -/
def failAt {α : Type} (p : Pos) (cause : Cause) : Parser α := fun ts => .error ⟨cause, p⟩ ts

/-- Fails at the token in front. -/
def fail {α : Type} (cause : Cause) : Parser α := do failAt (← current).pos cause

/-- Fails for want of something else than the token in front. -/
def failFor {α : Type} (wanted : Wanted) : Parser α := do
  let t ← current
  failAt t.pos (.expected wanted (.ofToken t))

/-- Whether the token in front is spelled `s`. -/
def sees (s : String) : Parser Bool := return (← current).spells s

/-- Whether the token in front is spelled like one of the texts. -/
def seesAny (texts : List String) : Parser Bool := return texts.any (← current).spells

def seesKind (kind : Token.Kind) : Parser Bool := return (← current).kind = kind

def expect (s : String) : Parser Token := do
  if ← sees s then advance else failFor (.text s)

def expectIdent : Parser Token := do
  if ← seesKind .ident then advance else failFor .identifier

/-! ### Repetition

What is repeated or nested is told by one turn of it, which is given the turns after it as `again`. How many
turns there can be is a bound of its own. -/

/-- The tokens left, counted. -/
def left : Parser Nat := fun ts => .ok ts.length ts

/-- A comma and another item. -/
def itemTurn {α : Type} (item : Parser α) (again : Parser (List α)) : Parser (List α) := do
  if ← sees "," then
    let _ ← advance
    let a ← item
    return a :: (← again)
  else return []

/-- What follows an item in a list: at most `n` times a comma and another item. -/
def moreItems {α : Type} (item : Parser α) : (n : Nat) → Parser (List α)
  | 0 => pure []
  | n + 1 => itemTurn item (moreItems item n)

/-- One item or several with commas between them. -/
def items {α : Type} (item : Parser α) : Parser (List α) := do
  let a ← item
  return a :: (← moreItems item (← left))

/-- Items up to a closing token, which is left in place. -/
def itemsUntil {α : Type} (close : String) (item : Parser α) : Parser (List α) := do
  if ← sees close then return [] else items item

end Snack.Parser
