import Snack.Proofs.Tree.Moved

/-! Trees in which `ρ` takes the place of all names that a program can choose: of variables, functions,
parameters, iterators, classes and their members. The primitive types keep theirs. -/

namespace Snack.Tree

def TypeExpr.rename (ρ : String → String) : TypeExpr → TypeExpr
  | .named p name => .named p name
  | .array p base => .array p (base.rename ρ)
  | .dict p key value => .dict p (key.rename ρ) (value.rename ρ)
  | .optional p base => .optional p (base.rename ρ)
  | .ref p name => .ref p (ρ name)
  | .unknown p kind => .unknown p kind
  | .absent part => .absent part

mutual

def Expr.rename (ρ : String → String) : Expr → Expr
  | .num p text => .num p text
  | .str p value => .str p value
  | .bool p value => .bool p value
  | .var p name => .var p (ρ name)
  | .paren p e => .paren p (e.rename ρ)
  | .binary p op l r => .binary p op (l.rename ρ) (r.rename ρ)
  | .unary p op e => .unary p op (e.rename ρ)
  | .call p callee none => .call p (callee.rename ρ) none
  | .call p callee (some args) => .call p (callee.rename ρ) (some (renameExprs ρ args))
  | .member p o op name => .member p (o.rename ρ) op (name.map ρ)
  | .array p es => .array p (renameExprs ρ es)
  | .tuple p es => .tuple p (renameExprs ρ es)
  | .dict p es => .dict p (renameEntries ρ es)
  | .emptyArray p t => .emptyArray p (t.rename ρ)
  | .emptyOptional p t => .emptyOptional p (t.rename ρ)
  | .unknown p kind => .unknown p kind
  | .absent part => .absent part

def renameExprs (ρ : String → String) : List Expr → List Expr
  | [] => []
  | e :: es => e.rename ρ :: renameExprs ρ es

def renameEntries (ρ : String → String) : List Entry → List Entry
  | [] => []
  | .mk p key value :: es => .mk p (key.rename ρ) (value.rename ρ) :: renameEntries ρ es

end

def Param.rename (ρ : String → String) (q : Param) : Param :=
  ⟨q.pos, q.type.map (·.rename ρ), q.name.map ρ⟩

mutual

def Stmt.rename (ρ : String → String) : Stmt → Stmt
  | .varDecl p t name init => .varDecl p (t.map (·.rename ρ)) (ρ name) (init.map (·.rename ρ))
  | .collection p name e => .collection p (ρ name) (e.rename ρ)
  | .function p name ps returns body =>
    .function p (ρ name) (ps.map (·.map (·.rename ρ))) (returns.map (·.rename ρ)) (renameBlock ρ body)
  | .classDecl p name body => .classDecl p (ρ name) (renameBlock ρ body)
  | .ifChain p t body cs none => .ifChain p (t.rename ρ) (renameBlock ρ body) (renameClauses ρ cs) none
  | .ifChain p t body cs (some rest) =>
    .ifChain p (t.rename ρ) (renameBlock ρ body) (renameClauses ρ cs) (some (renameBlock ρ rest))
  | .whileLoop p t body => .whileLoop p (t.rename ρ) (renameBlock ρ body)
  | .rangeLoop p name low op high body =>
    .rangeLoop p (name.map ρ) (low.rename ρ) op (high.rename ρ) (renameBlock ρ body)
  | .eachLoop p names e body => .eachLoop p (names.map (·.map ρ)) (e.rename ρ) (renameBlock ρ body)
  | .print p es => .print p (renameExprs ρ es)
  | .ret p value => .ret p (value.map (·.rename ρ))
  | .brk p => .brk p
  | .assign p t e => .assign p (t.rename ρ) (e.rename ρ)
  | .addAssign p t e => .addAssign p (t.rename ρ) (e.rename ρ)
  | .bump p t op => .bump p (t.rename ρ) op
  | .call p callee args => .call p (callee.rename ρ) (args.map (renameExprs ρ))
  | .unknown p kind => .unknown p kind
  | .absent part => .absent part
  | .incomplete part => .incomplete part

def renameBlock (ρ : String → String) : List Stmt → List Stmt
  | [] => []
  | s :: ss => s.rename ρ :: renameBlock ρ ss

def renameClauses (ρ : String → String) : List ElseIf → List ElseIf
  | [] => []
  | .mk p t body :: cs => .mk p (t.rename ρ) (renameBlock ρ body) :: renameClauses ρ cs

end

section Renames

variable {ρ : String → String}

theorem length_renameExprs (es : List Expr) : (renameExprs ρ es).length = es.length := by
  induction es with
  | nil => rfl
  | cons e es ih => rw [renameExprs, List.length_cons, ih, List.length_cons]

theorem Expr.rename_call (p : Pos) (callee : Expr) (args : Option (List Expr)) :
    (Expr.call p callee args).rename ρ = .call p (callee.rename ρ) (args.map (renameExprs ρ)) := by
  cases args <;> rfl

/-- Names have nothing to do with places. -/
theorem Expr.pos_rename (e : Expr) : (e.rename ρ).pos = e.pos := by
  cases e with
  | call p callee args => cases args <;> rfl
  | _ => rfl

theorem Stmt.kind_rename (s : Stmt) : (s.rename ρ).kind = s.kind := by
  cases s with
  | ifChain p t b cs rest => cases rest <;> rfl
  | function p name ps returns body => cases ps <;> rfl
  | _ => rfl

end Renames

end Snack.Tree
