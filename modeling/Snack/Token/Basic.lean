import Snack.Pos
import Snack.Prim

/-! Tokens: what a source text is made of once blanks and comments are gone. The text of a token is
its spelling, except that a string literal holds the characters it stands for. -/

namespace Snack

/-- The words that steer statements and name the literals, each written as one emoji but for `in`. -/
inductive Keyword where
  | var | collection | function | classDecl | ifBranch | elseIf | elseBranch | whileLoop | forLoop
  | print | ret | brk | true | false | none | inside
  deriving DecidableEq

namespace Keyword

def text : Keyword → String
  | var => "🍳"
  | collection => "🥡"
  | function => "🥘"
  | classDecl => "🫙"
  | ifBranch => "🧁"
  | elseIf => "🍰"
  | elseBranch => "🎂"
  | whileLoop => "🍤"
  | forLoop => "🥐"
  | print => "🍽"
  | ret => "🫗"
  | brk => "☕"
  | true => "🥗"
  | false => "🍲"
  | none => "🫥"
  | inside => "in"

/-- The emoji among the keywords. -/
def symbols : List Char :=
  ['🍳', '🥡', '🥘', '🫙', '🧁', '🍰', '🎂', '🍤', '🥐', '🍽', '🫗', '☕', '🥗', '🍲', '🫥']

end Keyword

namespace Token

inductive Kind where
  | number | string | ident | keyword | type | op | eof
  deriving DecidableEq

def Kind.name : Kind → String
  | number => "NUMBER"
  | string => "STRING"
  | ident => "IDENT"
  | keyword => "KEYWORD"
  | type => "TYPE"
  | op => "OP"
  | eof => "EOF"

end Token

structure Token where
  kind : Token.Kind
  text : String
  pos : Pos
  deriving DecidableEq

namespace Token

/-- The token that closes every list of tokens. -/
def endAt (p : Pos) : Token := ⟨.eof, "", p⟩

instance : Inhabited Token := ⟨endAt .unknown⟩

/-- Whether a token is spelled `s`. The contents of a string literal are no spelling. -/
def spells (t : Token) (s : String) : Bool := t.text == s && t.kind != .string && t.kind != .eof

end Token

end Snack
