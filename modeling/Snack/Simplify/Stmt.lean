import Snack.Simplify.Expr

/-! Removal of statements that do nothing or never run. A statement may give way to several or to none;
they take its place in the block around it. -/

namespace Snack.Simplify

open Snack.Core

/-- Whether both are the same entity. -/
def sameEntity : Expr → Expr → Bool
  | .ref a, .ref b => a.id == b.id
  | _, _ => false

/-- Whether both bounds are known and the range between them is empty. -/
def emptyRange (low high : Expr) : Bool :=
  match number? low, number? high with
  | some x, some y => y.lt x
  | _, _ => false

def isEmptyArray : Expr → Bool
  | .emptyArray _ => true
  | _ => false

def isFalse : Expr → Bool
  | .bool false => true
  | _ => false

/-- What is left of a branch whose test fails, as statements. -/
def spliced : Else → List Stmt
  | .none => []
  | .block body => body
  | .elseIf test body rest loc => [.ifElse test body rest loc]

/-- What is left of it in the place of an else part. -/
def replaced : Else → Else
  | .none => .block []
  | rest => rest

mutual

/-- The statements that take the place of a statement. -/
def stmt : Stmt → List Stmt
  | .declare v init loc => [.declare v (init.map expr) loc]
  | .function f loc => [.function (function f) loc]
  | .classDecl c fields methods loc => [.classDecl c fields (functions methods) loc]
  | .assign target source loc =>
    if sameEntity (expr source) (expr target) then [] else [.assign (expr target) (expr source) loc]
  | .addAssign target source loc => [.addAssign (expr target) (expr source) loc]
  | .increment target loc => [.increment (expr target) loc]
  | .decrement target loc => [.decrement (expr target) loc]
  | .ifElse test body rest loc =>
    match expr test with
    | .bool true => block body
    | .bool false => spliced (elsePart rest)
    | test => [.ifElse test (block body) (elsePart rest) loc]
  | .whileLoop test body loc =>
    if isFalse (expr test) then [] else [.whileLoop (expr test) (block body) loc]
  | .rangeLoop i low op high body loc =>
    if emptyRange (expr low) (expr high) then []
    else [.rangeLoop i (expr low) op (expr high) (block body) loc]
  | .eachLoop is collection body loc =>
    if isEmptyArray (expr collection) then [] else [.eachLoop is (expr collection) (block body) loc]
  | .ret value loc => [.ret (value.map expr) loc]
  | .print es loc => [.print (exprs es) loc]
  | .call e loc => [.call (expr e) loc]
  | s => [s]

def block : List Stmt → List Stmt
  | [] => []
  | s :: ss => stmt s ++ block ss

def elsePart : Else → Else
  | .none => .none
  | .block body => .block (block body)
  | .elseIf test body rest loc =>
    match expr test with
    | .bool true => .block (block body)
    | .bool false => replaced (elsePart rest)
    | test => .elseIf test (block body) (elsePart rest) loc

def function : Function → Function
  | .mk e params body loc => .mk e params (block body) loc

def functions : List Function → List Function
  | [] => []
  | f :: fs => function f :: functions fs

end

/-- The simplified form of a program. -/
def program (p : Program) : Program := ⟨block p.statements⟩

end Snack.Simplify
