import Snack.Parser.Basic
import Snack.Tree.Basic

/-! Reading a written type: an emoji, the name of a class, an array or a dictionary of types, and any
number of question marks behind it. -/

namespace Snack.Parser

open Snack.Tree

/-- A question mark behind a type. The wrapped type starts where the type does. -/
def markTurn (p : Pos) (again : TypeExpr → Parser TypeExpr) (type : TypeExpr) : Parser TypeExpr := do
  if ← sees "?" then
    let _ ← advance
    again (.optional p type)
  else return type

/-- Wraps a type once for every question mark in front, at most `n` times. -/
def optionalMarks (p : Pos) : (n : Nat) → TypeExpr → Parser TypeExpr
  | 0, type => pure type
  | n + 1, type => markTurn p (optionalMarks p n) type

/-- A type, with `inner` for the types inside its brackets. -/
def typeWith (inner : Parser TypeExpr) : Parser TypeExpr := do
  let t ← current
  let base ←
    if t.kind = .type then
      let _ ← advance
      pure (TypeExpr.named t.pos t.text)
    else if ← sees "[" then
      let _ ← advance
      let base ← inner
      let _ ← expect "]"
      pure (.array t.pos base)
    else if ← sees "\x7b" then
      let _ ← advance
      let key ← inner
      let _ ← expect ":"
      let value ← inner
      let _ ← expect "\x7d"
      pure (.dict t.pos key value)
    else if t.kind = .ident then
      let _ ← advance
      pure (.ref t.pos t.text)
    else failFor .type
  optionalMarks t.pos (← left) base

/-- A type whose brackets nest less than `n` deep. -/
def typeWithin : (n : Nat) → Parser TypeExpr
  | 0 => failFor .type
  | n + 1 => typeWith (typeWithin n)

/-- A type. Every bracket takes a token, so the tokens left bound the nesting. -/
def typeExpr : Parser TypeExpr := do typeWithin (← left)

/-- Whether a type is in front. A name counts as one only if a second name or a question mark follows. -/
def seesType : Parser Bool := do
  let t ← current
  if t.kind = .type || t.spells "[" || t.spells "\x7b" then return true
  if t.kind ≠ .ident then return false
  let next ← peek 1
  return next.kind = .ident || (next.kind = .op && next.text == "?")

end Snack.Parser
