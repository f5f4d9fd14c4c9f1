import Snack.Parser.TypeExpr

/-! Reading an expression. From the loosest to the tightest level: `??` to the right, `||`, `&&`, one
comparison, sums, products, prefix operators, `**`, members and calls, and what needs no operator.
A level that has something in brackets takes the reader of whole expressions as an argument. -/

namespace Snack.Parser

open Snack.Tree

/-- An operation stands where its left operand does. -/
def binary (left : Expr) (op : BinaryOp) (right : Expr) : Expr := .binary left.pos op left right

/-- Whether an expression can start with the token in front. -/
def seesExpr : Parser Bool := do
  let t ← current
  return t.kind = .number || t.kind = .string || t.kind = .ident ||
    [Keyword.true.text, Keyword.false.text, Keyword.none.text].contains t.text ||
    (t.kind = .op && ["(", "[", "\x7b", "-", "!"].contains t.text)

/-! ### Primary expressions -/

/-- An entry of a dictionary, if its closing brace is not in front. A comma may stand behind the last one. -/
def entryTurn (inner : Parser Expr) (again : Parser (List Entry)) : Parser (List Entry) := do
  if ← sees "\x7d" then return []
  let key ← inner
  let _ ← expect ":"
  let value ← inner
  let entry := Entry.mk key.pos key value
  if ← sees "," then
    let _ ← advance
    return entry :: (← again)
  else return [entry]

/-- The entries of a dictionary up to its closing brace, at most `n` of them. -/
def entries (inner : Parser Expr) : (n : Nat) → Parser (List Entry)
  | 0 => pure []
  | n + 1 => entryTurn inner (entries inner n)

def dictLiteral (inner : Parser Expr) : Parser Expr := do
  let t ← expect "\x7b"
  let es ← entries inner (← left)
  let _ ← expect "\x7d"
  return .dict t.pos es

/-- What starts with a parenthesis: one expression, or a tuple of several. -/
def parenthesized (inner : Parser Expr) (p : Pos) : Parser Expr := do
  let first ← inner
  let more ← moreItems inner (← left)
  let _ ← expect ")"
  return if more.isEmpty then .paren p first else .tuple p (first :: more)

/-- What starts with a bracket. An emoji type starts no expression, so in front of one it is an empty
array of that type. -/
def bracketed (inner : Parser Expr) (p : Pos) : Parser Expr := do
  if ← seesKind .type then
    let type ← typeExpr
    let _ ← expect "]"
    return .emptyArray p type
  else
    let es ← itemsUntil "]" inner
    let _ ← expect "]"
    return .array p es

def primaryWith (inner : Parser Expr) : Parser Expr := do
  let t ← current
  match t.kind with
  | .number =>
    let _ ← advance
    return .num t.pos t.text
  | .string =>
    let _ ← advance
    return .str t.pos t.text
  | .ident =>
    let _ ← advance
    return .var t.pos t.text
  | _ =>
    if ← seesAny [Keyword.true.text, Keyword.false.text] then
      let _ ← advance
      return .bool t.pos (t.text == Keyword.true.text)
    else if ← sees Keyword.none.text then
      let _ ← advance
      return .emptyOptional t.pos (← typeExpr)
    else if ← sees "(" then
      let _ ← advance
      parenthesized inner t.pos
    else if ← sees "[" then
      let _ ← advance
      bracketed inner t.pos
    else if ← sees "\x7b" then dictLiteral inner
    else failFor .expression

/-! ### Operators -/

/-- A member or a call behind an expression. -/
def suffixTurn (inner : Parser Expr) (again : Expr → Parser Expr) (e : Expr) : Parser Expr := do
  if ← seesAny [".", "?."] then
    let op ← advance
    let name ← expectIdent
    again (.member e.pos e (some (.ofText op.text)) (some name.text))
  else if ← sees "(" then
    let _ ← advance
    let args ← itemsUntil ")" inner
    let _ ← expect ")"
    again (.call e.pos e (some args))
  else return e

/-- Members and calls behind an expression, at most `n` of them. -/
def postfixTail (inner : Parser Expr) : (n : Nat) → Expr → Parser Expr
  | 0, e => pure e
  | n + 1, e => suffixTurn inner (postfixTail inner n) e

def postfixWith (inner : Parser Expr) : Parser Expr := do
  let e ← primaryWith inner
  postfixTail inner (← left) e

/-- An operand with `**` and a prefix expression behind it, or alone. -/
def powerOf (operand unary : Parser Expr) : Parser Expr := do
  let base ← operand
  if ← sees "**" then
    let _ ← advance
    return binary base .pow (← unary)
  else return base

/-- A prefix operator, or an operand. -/
def unaryTurn (operand again : Parser Expr) : Parser Expr := do
  if ← seesAny ["-", "!"] then
    let t ← advance
    return .unary t.pos (.ofText t.text) (← again)
  else powerOf operand again

/-- A prefix expression of at most `n` operators. -/
def unaryWithin (operand : Parser Expr) : (n : Nat) → Parser Expr
  | 0 => failFor .expression
  | n + 1 => unaryTurn operand (unaryWithin operand n)

def unaryWith (inner : Parser Expr) : Parser Expr := do unaryWithin (postfixWith inner) (← left)

def powerWith (inner : Parser Expr) : Parser Expr := powerOf (postfixWith inner) (unaryWith inner)

/-- One of the operators and its right operand. -/
def chainTurn (ops : List String) (operand : Parser Expr) (again : Expr → Parser Expr) (e : Expr) :
    Parser Expr := do
  if ← seesAny ops then
    let op ← advance
    let right ← operand
    again (binary e (.ofText op.text) right)
  else return e

/-- Operands joined from the left by at most `n` of the operators. -/
def chain (ops : List String) (operand : Parser Expr) : (n : Nat) → Expr → Parser Expr
  | 0, e => pure e
  | n + 1, e => chainTurn ops operand (chain ops operand n) e

def leftAssoc (ops : List String) (operand : Parser Expr) : Parser Expr := do
  let e ← operand
  chain ops operand (← left) e

def productWith (inner : Parser Expr) : Parser Expr := leftAssoc ["*", "/", "%"] (unaryWith inner)

def sumWith (inner : Parser Expr) : Parser Expr := leftAssoc ["+", "-"] (productWith inner)

/-- At most one comparison; its operands are sums. -/
def compareWith (inner : Parser Expr) : Parser Expr := do
  let e ← sumWith inner
  let t ← current
  if t.kind = .op && ["<", "<=", "==", "!=", ">=", ">"].contains t.text then
    let _ ← advance
    return binary e (.ofText t.text) (← sumWith inner)
  else return e

def andWith (inner : Parser Expr) : Parser Expr := leftAssoc ["&&"] (compareWith inner)

def orWith (inner : Parser Expr) : Parser Expr := leftAssoc ["||"] (andWith inner)

/-- An operand, with `??` and what follows it or alone. -/
def coalesceTurn (operand again : Parser Expr) : Parser Expr := do
  let e ← operand
  if ← sees "??" then
    let _ ← advance
    return binary e .coalesce (← again)
  else return e

/-- At most `n` operands joined from the right by `??`. -/
def coalesceWithin (operand : Parser Expr) : (n : Nat) → Parser Expr
  | 0 => failFor .expression
  | n + 1 => coalesceTurn operand (coalesceWithin operand n)

def exprWith (inner : Parser Expr) : Parser Expr := do coalesceWithin (orWith inner) (← left)

/-! ### Whole expressions -/

/-- An expression whose brackets nest less than `n` deep. -/
def exprWithin : (n : Nat) → Parser Expr
  | 0 => failFor .expression
  | n + 1 => exprWith (exprWithin n)

/-- An expression. Every bracket takes a token, so the tokens left bound the nesting. -/
def expr : Parser Expr := do exprWithin (← left)

def disjunction : Parser Expr := orWith expr

def conjunction : Parser Expr := andWith expr

def comparison : Parser Expr := compareWith expr

def sum : Parser Expr := sumWith expr

def product : Parser Expr := productWith expr

def unary : Parser Expr := unaryWith expr

def power : Parser Expr := powerWith expr

def postfixExpr : Parser Expr := postfixWith expr

def primary : Parser Expr := primaryWith expr

end Snack.Parser
