import Snack.Parser.Expr
import Snack.Token.Scan

/-! Reading statements, blocks and whole programs. A statement is told by the text of its first token;
a block stands between a colon and a semicolon. -/

namespace Snack.Parser

open Snack.Tree

/-! ### Parts of statements -/

/-- A type, if one is in front. -/
def typeIfAny : Parser (Option TypeExpr) := do
  if ← seesType then return some (← typeExpr) else return none

/-- What follows the token `s`, if that token is in front. -/
def behind {α : Type} (s : String) (p : Parser α) : Parser (Option α) := do
  if ← sees s then
    let _ ← advance
    return some (← p)
  else return none

def param : Parser Param := do
  let t ← current
  let type ← typeIfAny
  let name ← expectIdent
  return ⟨t.pos, type, some name.text⟩

def params : Parser (List Param) := itemsUntil ")" param

def paramsInParens : Parser (List Param) := do
  let ps ← params
  let _ ← expect ")"
  return ps

/-- An else-if clause, if there is one. -/
def clauseTurn (block : Parser (List Stmt)) (again : Parser (List ElseIf)) : Parser (List ElseIf) := do
  if ← sees Keyword.elseIf.text then
    let t ← advance
    let test ← expr
    let body ← block
    return .mk t.pos test body :: (← again)
  else return []

/-- Else-if clauses, at most `n` of them. -/
def elseIfs (block : Parser (List Stmt)) : (n : Nat) → Parser (List ElseIf)
  | 0 => pure []
  | n + 1 => clauseTurn block (elseIfs block n)

/-- Fails unless the expression can be assigned to. -/
def checkTarget : Expr → Parser Unit
  | .var .. | .member .. => pure ()
  | e => failAt e.pos .invalidTarget

/-! ### Statements -/

def varDecl : Parser Stmt := do
  let t ← expect Keyword.var.text
  let type ← typeIfAny
  let name ← expectIdent
  let init ← behind "=" expr
  return .varDecl t.pos type name.text init

def collection : Parser Stmt := do
  let t ← expect Keyword.collection.text
  let name ← expectIdent
  let _ ← expect "="
  if ← seesAny ["[", "\x7b"] then
    return .collection t.pos name.text (← primary)
  else failFor .collection

def function (block : Parser (List Stmt)) : Parser Stmt := do
  let t ← expect Keyword.function.text
  let name ← expectIdent
  let ps ← behind "(" paramsInParens
  let returns ← behind "->" typeExpr
  let body ← block
  return .function t.pos name.text ps returns body

def classDecl (block : Parser (List Stmt)) : Parser Stmt := do
  let t ← expect Keyword.classDecl.text
  let name ← expectIdent
  let body ← block
  return .classDecl t.pos name.text body

def ifChain (block : Parser (List Stmt)) : Parser Stmt := do
  let t ← expect Keyword.ifBranch.text
  let test ← expr
  let body ← block
  let clauses ← elseIfs block (← left)
  let elsePart ← behind Keyword.elseBranch.text block
  return .ifChain t.pos test body clauses elsePart

def whileLoop (block : Parser (List Stmt)) : Parser Stmt := do
  let t ← expect Keyword.whileLoop.text
  let test ← expr
  let body ← block
  return .whileLoop t.pos test body

/-- A loop over a range, which has one iterator, or over a collection. -/
def forLoop (block : Parser (List Stmt)) : Parser Stmt := do
  let t ← expect Keyword.forLoop.text
  let names ← items (return (← expectIdent).text)
  let _ ← expect Keyword.inside.text
  let e ← expr
  let next ← current
  if (next.text == "..." || next.text == "..<") && next.kind = .op then
    match names with
    | [name] =>
      let _ ← advance
      let high ← expr
      let body ← block
      return .rangeLoop t.pos (some name) e (some (.ofText next.text)) high body
    | _ => fail .severalIterators
  else
    let body ← block
    return .eachLoop t.pos (some names) e body

def print : Parser Stmt := do
  let t ← expect Keyword.print.text
  return .print t.pos (← items expr)

/-- A return. Its value has to start on the same line. -/
def ret : Parser Stmt := do
  let t ← expect Keyword.ret.text
  let next ← current
  if next.pos.line = t.pos.line && (← seesExpr) then
    return .ret t.pos (some (← expr))
  else return .ret t.pos none

/-- An assignment, a step up or down, or a call. -/
def exprStmt : Parser Stmt := do
  let t ← current
  if !(← seesExpr) then failFor .statement
  let e ← expr
  if ← seesAny ["=", "+="] then
    let op ← advance
    checkTarget e
    let value ← expr
    return if op.text == "=" then .assign t.pos e value else .addAssign t.pos e value
  else if ← seesAny ["++", "--"] then
    let op ← advance
    checkTarget e
    return .bump t.pos e (some (.ofText op.text))
  else
    match e with
    | .call p callee args => return .call p callee args
    | _ => failAt t.pos .notAStatement

/-- A statement, with `block` for the blocks inside it. -/
def stmtWith (block : Parser (List Stmt)) : Parser Stmt := do
  let t ← current
  if t.text = Keyword.var.text then varDecl
  else if t.text = Keyword.collection.text then collection
  else if t.text = Keyword.function.text then function block
  else if t.text = Keyword.classDecl.text then classDecl block
  else if t.text = Keyword.ifBranch.text then ifChain block
  else if t.text = Keyword.whileLoop.text then whileLoop block
  else if t.text = Keyword.forLoop.text then forLoop block
  else if t.text = Keyword.print.text then print
  else if t.text = Keyword.ret.text then ret
  else if t.text = Keyword.brk.text then
    let _ ← advance
    return .brk t.pos
  else exprStmt

/-- A statement, if a semicolon is not in front. -/
def closeTurn (stmt : Parser Stmt) (again : Parser (List Stmt)) : Parser (List Stmt) := do
  if ← sees ";" then return []
  if ← seesKind .eof then fail .unterminatedBlock
  let s ← stmt
  return s :: (← again)

/-- At most `n` statements up to a semicolon, which is left in place. -/
def stmtsUntilClose (stmt : Parser Stmt) : (n : Nat) → Parser (List Stmt)
  | 0 => fail .unterminatedBlock
  | n + 1 => closeTurn stmt (stmtsUntilClose stmt n)

def blockWith (stmt : Parser Stmt) : Parser (List Stmt) := do
  let _ ← expect ":"
  let body ← stmtsUntilClose stmt (← left)
  let _ ← expect ";"
  return body

/-- A block in which blocks nest less than `n` deep. -/
def blockWithin : (n : Nat) → Parser (List Stmt)
  | 0 => fail .unterminatedBlock
  | n + 1 => blockWith (stmtWith (blockWithin n))

/-- A block. Every block takes tokens, so the tokens left bound the nesting. -/
def block : Parser (List Stmt) := do blockWithin (← left)

def stmt : Parser Stmt := stmtWith block

/-- A statement, if the end is not in front. -/
def endTurn (again : Parser (List Stmt)) : Parser (List Stmt) := do
  if ← seesKind .eof then return []
  let s ← stmt
  return s :: (← again)

/-- At most `n` statements up to the end. -/
def stmtsUntilEnd : (n : Nat) → Parser (List Stmt)
  | 0 => pure []
  | n + 1 => endTurn (stmtsUntilEnd n)

/-- All statements up to the end. -/
def program : Parser Program := do stmtsUntilEnd (← left)

/-- The program in a list of tokens. -/
def run (tokens : List Token) : Except Error Program :=
  match program tokens with
  | .ok tree _ => .ok tree
  | .error e _ => .error e

end Snack.Parser
