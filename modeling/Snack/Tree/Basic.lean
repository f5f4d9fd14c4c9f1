import Snack.Operator
import Snack.Pos

/-! The tree that a source text is read into, before names and types are looked at. A tree may also be
built by hand, so it has cases for node kinds that nobody knows and for parts that are not there. -/

namespace Snack.Tree

/-- A written type. -/
inductive TypeExpr where
  /-- A primitive type, by its emoji or its name. -/
  | named (pos : Pos) (name : String)
  | array (pos : Pos) (base : TypeExpr)
  | dict (pos : Pos) (key value : TypeExpr)
  | optional (pos : Pos) (base : TypeExpr)
  /-- The type of a class. -/
  | ref (pos : Pos) (name : String)
  | unknown (pos : Pos) (kind : String)
  /-- Stands where the part of that name is missing. -/
  | absent (part : String)

mutual

inductive Expr where
  /-- A number as it is spelled. -/
  | num (pos : Pos) (text : String)
  | str (pos : Pos) (value : String)
  | bool (pos : Pos) (value : Bool)
  | var (pos : Pos) (name : String)
  | paren (pos : Pos) (inner : Expr)
  | binary (pos : Pos) (op : BinaryOp) (left right : Expr)
  | unary (pos : Pos) (op : UnaryOp) (operand : Expr)
  | call (pos : Pos) (callee : Expr) (args : Option (List Expr))
  | member (pos : Pos) (object : Expr) (op : Option AccessOp) (name : Option String)
  | array (pos : Pos) (items : List Expr)
  | tuple (pos : Pos) (items : List Expr)
  | dict (pos : Pos) (entries : List Entry)
  | emptyArray (pos : Pos) (element : TypeExpr)
  | emptyOptional (pos : Pos) (base : TypeExpr)
  | unknown (pos : Pos) (kind : String)
  /-- Stands where the part of that name is missing. -/
  | absent (part : String)

inductive Entry where
  | mk (pos : Pos) (key value : Expr)

end

structure Param where
  pos : Pos
  type : Option TypeExpr
  name : Option String

mutual

inductive Stmt where
  | varDecl (pos : Pos) (type : Option TypeExpr) (name : String) (init : Option Expr)
  | collection (pos : Pos) (name : String) (value : Expr)
  /-- A function. One without parentheses has no parameter list at all. -/
  | function (pos : Pos) (name : String) (params : Option (List Param)) (returns : Option TypeExpr)
      (body : List Stmt)
  | classDecl (pos : Pos) (name : String) (body : List Stmt)
  | ifChain (pos : Pos) (test : Expr) (body : List Stmt) (elseIfs : List ElseIf)
      (elsePart : Option (List Stmt))
  | whileLoop (pos : Pos) (test : Expr) (body : List Stmt)
  | rangeLoop (pos : Pos) (name : Option String) (low : Expr) (op : Option RangeOp) (high : Expr)
      (body : List Stmt)
  | eachLoop (pos : Pos) (names : Option (List String)) (collection : Expr) (body : List Stmt)
  | print (pos : Pos) (exprs : List Expr)
  | ret (pos : Pos) (value : Option Expr)
  | brk (pos : Pos)
  | assign (pos : Pos) (target value : Expr)
  | addAssign (pos : Pos) (target value : Expr)
  | bump (pos : Pos) (target : Expr) (op : Option BumpOp)
  | call (pos : Pos) (callee : Expr) (args : Option (List Expr))
  | unknown (pos : Pos) (kind : String)
  /-- Stands where the part of that name is missing, which shows at the first look. -/
  | absent (part : String)
  /-- A statement whose first part is missing, which shows when it is analysed. -/
  | incomplete (part : String)

inductive ElseIf where
  | mk (pos : Pos) (test : Expr) (body : List Stmt)

end

/-- A whole program. -/
abbrev Program := List Stmt

def Expr.pos : Expr → Pos
  | .num p _ | .str p _ | .bool p _ | .var p _ | .paren p _ | .binary p _ _ _ | .unary p _ _
  | .call p _ _ | .member p _ _ _ | .array p _ | .tuple p _ | .dict p _ | .emptyArray p _
  | .emptyOptional p _ | .unknown p _ => p
  | .absent _ => .unknown

/-- The name of a statement's kind. -/
def Stmt.kind : Stmt → String
  | .varDecl .. => "vardecl"
  | .collection .. => "collection"
  | .function _ _ none _ _ => "simplefunction"
  | .function .. => "function"
  | .classDecl .. => "class"
  | .ifChain .. => "if"
  | .whileLoop .. => "while"
  | .rangeLoop .. => "forloop"
  | .eachLoop .. => "foreach"
  | .print .. => "print"
  | .ret .. => "return"
  | .brk .. => "break"
  | .assign .. => "assign"
  | .addAssign .. => "addassign"
  | .bump .. => "bump"
  | .call .. => "call"
  | .unknown _ kind => kind
  | .absent _ | .incomplete _ => ""

end Snack.Tree
