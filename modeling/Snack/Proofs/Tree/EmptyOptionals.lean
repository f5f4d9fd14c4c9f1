import Snack.Tree.Basic

/-! The empty optionals in a tree, each by the type that is written behind it. -/

namespace Snack.Tree

/-- Whether the written type is an optional. -/
def TypeExpr.isOptional : TypeExpr → Bool
  | .optional _ _ => true
  | _ => false

mutual

/-- The types behind the empty optionals of an expression. -/
def Expr.emptyOptionals : Expr → List TypeExpr
  | .emptyOptional _ base => [base]
  | .paren _ e | .unary _ _ e | .member _ e _ _ | .call _ e none => e.emptyOptionals
  | .binary _ _ left right => left.emptyOptionals ++ right.emptyOptionals
  | .call _ callee (some args) => callee.emptyOptionals ++ emptyOptionalsOfAll args
  | .array _ items | .tuple _ items => emptyOptionalsOfAll items
  | .dict _ entries => emptyOptionalsOfEntries entries
  | .num .. | .str .. | .bool .. | .var .. | .emptyArray .. | .unknown .. | .absent _ => []

def emptyOptionalsOfAll : List Expr → List TypeExpr
  | [] => []
  | e :: es => e.emptyOptionals ++ emptyOptionalsOfAll es

def emptyOptionalsOfEntries : List Entry → List TypeExpr
  | [] => []
  | .mk _ key value :: es => key.emptyOptionals ++ (value.emptyOptionals ++ emptyOptionalsOfEntries es)

end

mutual

/-- The types behind the empty optionals of a statement. -/
def Stmt.emptyOptionals : Stmt → List TypeExpr
  | .varDecl _ _ _ init => emptyOptionalsOfAll init.toList
  | .collection _ _ value => value.emptyOptionals
  | .function _ _ _ _ body | .classDecl _ _ body => emptyOptionalsOfBlock body
  | .ifChain _ test body elseIfs none =>
    test.emptyOptionals ++ (emptyOptionalsOfBlock body ++ emptyOptionalsOfClauses elseIfs)
  | .ifChain _ test body elseIfs (some elsePart) =>
    test.emptyOptionals ++
      (emptyOptionalsOfBlock body ++ (emptyOptionalsOfClauses elseIfs ++ emptyOptionalsOfBlock elsePart))
  | .whileLoop _ test body => test.emptyOptionals ++ emptyOptionalsOfBlock body
  | .rangeLoop _ _ low _ high body =>
    low.emptyOptionals ++ (high.emptyOptionals ++ emptyOptionalsOfBlock body)
  | .eachLoop _ _ collection body => collection.emptyOptionals ++ emptyOptionalsOfBlock body
  | .print _ exprs => emptyOptionalsOfAll exprs
  | .ret _ value => emptyOptionalsOfAll value.toList
  | .assign _ target value | .addAssign _ target value => target.emptyOptionals ++ value.emptyOptionals
  | .bump _ target _ => target.emptyOptionals
  | .call p callee args => (Expr.call p callee args).emptyOptionals
  | .brk _ | .unknown .. | .absent _ | .incomplete _ => []

/-- The types behind the empty optionals of a block, which may be a whole program. -/
def emptyOptionalsOfBlock : List Stmt → List TypeExpr
  | [] => []
  | s :: ss => s.emptyOptionals ++ emptyOptionalsOfBlock ss

def emptyOptionalsOfClauses : List ElseIf → List TypeExpr
  | [] => []
  | .mk _ test body :: cs => test.emptyOptionals ++ (emptyOptionalsOfBlock body ++ emptyOptionalsOfClauses cs)

end

end Snack.Tree
