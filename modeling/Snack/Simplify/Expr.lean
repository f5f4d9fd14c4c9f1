import Snack.Core.Basic
import Snack.Number.Arith

/-! Constant folding and algebraic identities. Operands are simplified first, so one pass is enough for
what constants alone decide. -/

namespace Snack.Simplify

open Snack.Core

/-- The number that a literal writes. -/
def number? : Expr → Option Number
  | .int n => some (.int n)
  | .float x => some (.float x)
  | _ => none

def ofNumber : Number → Expr
  | .int n => .int n
  | .float x => .float x

def ofValue : Number.Value → Expr
  | .number x => ofNumber x
  | .bool b => .bool b

/-- An operation with a constant `x` on the left only. -/
def withLeft (x : Number) (op : BinaryOp) (left right : Expr) : Option Expr :=
  match op with
  | .add => if x.isZero then some right else none
  | .mul => if x.isOne then some right else if x.isZero then some left else none
  | .sub => if x.isZero then some (.unary .neg right right.typ) else none
  | .pow => if x.isOne then some left else none
  | .div => if x.isZero then some left else none
  | _ => none

/-- An operation of type `t` with a constant `y` on the right only. -/
def withRight (op : BinaryOp) (y : Number) (left right : Expr) (t : Ty) : Option Expr :=
  match op with
  | .add | .sub => if y.isZero then some left else none
  | .div => if y.isOne then some left else none
  | .mul => if y.isOne then some left else if y.isZero then some right else none
  | .pow =>
    if y.isZero then
      match t with
      | .int => some (.int 1)
      | _ => some (.float Number.one)
    else none
  | _ => none

/-- What an operation on simplified operands comes down to, if it can be made simpler. -/
def binary? (op : BinaryOp) (left right : Expr) (t : Ty) : Option Expr :=
  match op with
  | .coalesce =>
    match left with
    | .emptyOptional _ => some right
    | _ => none
  | .and =>
    match left, right with
    | .bool true, e | e, .bool true => some e
    | _, _ => none
  | .or =>
    match left, right with
    | .bool false, e | e, .bool false => some e
    | _, _ => none
  | op =>
    match number? left, number? right with
    | some x, some y => (Number.fold? x op y).map ofValue
    | some x, none => withLeft x op left right
    | none, some y => withRight op y left right t
    | none, none => none

def binary (op : BinaryOp) (left right : Expr) (t : Ty) : Expr :=
  (binary? op left right t).getD (.binary op left right t)

/-- A minus on a literal is a literal. -/
def unary (op : UnaryOp) (operand : Expr) (t : Ty) : Expr :=
  match op, number? operand with
  | .neg, some x => ofNumber x.neg
  | op, _ => .unary op operand t

mutual

/-- The simplified form of an expression. -/
def expr : Expr → Expr
  | .binary op left right t => binary op (expr left) (expr right) t
  | .unary op operand t => unary op (expr operand) t
  | .call callee args t => .call (expr callee) (exprs args) t
  | .construct c args => .construct c (exprs args)
  | .member object op field t => .member (expr object) op field t
  | .array es t => .array (exprs es) t
  | .tuple es t => .tuple (exprs es) t
  | .dict es t => .dict (entries es) t
  | e => e

def exprs : List Expr → List Expr
  | [] => []
  | e :: es => expr e :: exprs es

def entries : List (Expr × Expr) → List (Expr × Expr)
  | [] => []
  | (k, v) :: es => (expr k, expr v) :: entries es

end

end Snack.Simplify
