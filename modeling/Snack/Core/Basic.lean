import Snack.Operator
import Snack.Pos
import Snack.Ty.Basic

/-! The typed program. Names are gone: every use of a variable, function or class holds the entity
that was made where it was declared, and every expression knows its type. -/

namespace Snack.Core

/-! ### Entities -/

inductive EntityKind where
  /-- A variable. The iterator of a loop is one that cannot be assigned to. -/
  | var (mutable : Bool)
  | parameter
  | function (isMethod : Bool)
  | classDef
  /-- A function of the standard library. A variadic one takes any number of arguments. -/
  | builtin (variadic : Bool)
  | constant
  /-- A kind that no rule knows. -/
  | other (tag : String)
  deriving DecidableEq

/-- A declared thing. Two entities are the same if their numbers are. -/
structure Entity where
  id : Nat
  kind : EntityKind
  name : String
  typ : Ty

instance : Inhabited Entity := ⟨⟨0, .constant, "", default⟩⟩

/-! ### Expressions -/

inductive Expr where
  | int (value : Int)
  | float (value : Float)
  | str (value : String)
  | bool (value : Bool)
  | ref (entity : Entity)
  | binary (op : BinaryOp) (left right : Expr) (typ : Ty)
  | unary (op : UnaryOp) (operand : Expr) (typ : Ty)
  | call (callee : Expr) (args : List Expr) (typ : Ty)
  /-- A new object of a class, one argument for each field. -/
  | construct (cls : Entity) (args : List Expr)
  | member (object : Expr) (op : AccessOp) (field : String) (typ : Ty)
  | array (elements : List Expr) (typ : Ty)
  | tuple (elements : List Expr) (typ : Ty)
  | dict (entries : List (Expr × Expr)) (typ : Ty)
  | emptyArray (typ : Ty)
  | emptyOptional (typ : Ty)
  /-- A kind that no rule knows. -/
  | other (tag : String) (typ : Ty)

def Expr.typ : Expr → Ty
  | .int _ => .int
  | .float _ => .float
  | .str _ => .string
  | .bool _ => .bool
  | .ref e => e.typ
  | .construct c _ => c.typ
  | .binary _ _ _ t | .unary _ _ t | .call _ _ t | .member _ _ _ t | .array _ t | .tuple _ t | .dict _ t
  | .emptyArray t | .emptyOptional t | .other _ t => t

/-! ### Statements -/

structure Field where
  name : String
  typ : Ty

mutual

inductive Stmt where
  | declare (v : Entity) (init : Option Expr) (loc : Pos)
  | function (f : Function) (loc : Pos)
  | classDecl (cls : Entity) (fields : List Field) (methods : List Function) (loc : Pos)
  | assign (target source : Expr) (loc : Pos)
  | addAssign (target source : Expr) (loc : Pos)
  | increment (target : Expr) (loc : Pos)
  | decrement (target : Expr) (loc : Pos)
  | ifElse (test : Expr) (body : List Stmt) (rest : Else) (loc : Pos)
  | whileLoop (test : Expr) (body : List Stmt) (loc : Pos)
  | rangeLoop (iterator : Entity) (low : Expr) (op : RangeOp) (high : Expr) (body : List Stmt) (loc : Pos)
  | eachLoop (iterators : List Entity) (collection : Expr) (body : List Stmt) (loc : Pos)
  | ret (value : Option Expr) (loc : Pos)
  | brk (loc : Pos)
  | print (exprs : List Expr) (loc : Pos)
  | call (call : Expr) (loc : Pos)
  /-- A kind that no rule knows. -/
  | other (tag : String) (loc : Pos)

/-- What runs when a test fails: nothing, a block, or another test. -/
inductive Else where
  | none
  | block (body : List Stmt)
  | elseIf (test : Expr) (body : List Stmt) (rest : Else) (loc : Pos)

inductive Function where
  | mk (entity : Entity) (params : List Entity) (body : List Stmt) (loc : Pos)

end

namespace Function

def entity : Function → Entity
  | mk e _ _ _ => e

def params : Function → List Entity
  | mk _ ps _ _ => ps

def body : Function → List Stmt
  | mk _ _ b _ => b

def loc : Function → Pos
  | mk _ _ _ p => p

def isMethod (f : Function) : Bool := f.entity.kind == .function true

end Function

structure Program where
  statements : List Stmt

end Snack.Core
