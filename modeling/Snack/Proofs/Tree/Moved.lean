import Mathlib.Logic.Basic
import Snack.Proofs.Tree.Formed

/-! Trees that stand elsewhere and have other string literals: `f` takes each place to another one, and `g`
gives each string literal new contents. -/

namespace Snack.Tree

def TypeExpr.move (f : Pos → Pos) : TypeExpr → TypeExpr
  | .named p name => .named (f p) name
  | .array p base => .array (f p) (base.move f)
  | .dict p key value => .dict (f p) (key.move f) (value.move f)
  | .optional p base => .optional (f p) (base.move f)
  | .ref p name => .ref (f p) name
  | .unknown p kind => .unknown (f p) kind
  | .absent part => .absent part

mutual

def Expr.change (f : Pos → Pos) (g : String → String) : Expr → Expr
  | .num p text => .num (f p) text
  | .str p value => .str (f p) (g value)
  | .bool p value => .bool (f p) value
  | .var p name => .var (f p) name
  | .paren p e => .paren (f p) (e.change f g)
  | .binary p op l r => .binary (f p) op (l.change f g) (r.change f g)
  | .unary p op e => .unary (f p) op (e.change f g)
  | .call p callee none => .call (f p) (callee.change f g) none
  | .call p callee (some args) => .call (f p) (callee.change f g) (some (changeExprs f g args))
  | .member p o op name => .member (f p) (o.change f g) op name
  | .array p es => .array (f p) (changeExprs f g es)
  | .tuple p es => .tuple (f p) (changeExprs f g es)
  | .dict p es => .dict (f p) (changeEntries f g es)
  | .emptyArray p t => .emptyArray (f p) (t.move f)
  | .emptyOptional p t => .emptyOptional (f p) (t.move f)
  | .unknown p kind => .unknown (f p) kind
  | .absent part => .absent part

def changeExprs (f : Pos → Pos) (g : String → String) : List Expr → List Expr
  | [] => []
  | e :: es => e.change f g :: changeExprs f g es

def changeEntries (f : Pos → Pos) (g : String → String) : List Entry → List Entry
  | [] => []
  | .mk p key value :: es => .mk (f p) (key.change f g) (value.change f g) :: changeEntries f g es

end

def Param.move (f : Pos → Pos) (q : Param) : Param := ⟨f q.pos, q.type.map (·.move f), q.name⟩

mutual

def Stmt.change (f : Pos → Pos) (g : String → String) : Stmt → Stmt
  | .varDecl p t name init => .varDecl (f p) (t.map (·.move f)) name (init.map (Expr.change f g))
  | .collection p name e => .collection (f p) name (e.change f g)
  | .function p name ps returns body =>
    .function (f p) name (ps.map (·.map (·.move f))) (returns.map (·.move f)) (changeBlock f g body)
  | .classDecl p name body => .classDecl (f p) name (changeBlock f g body)
  | .ifChain p t body cs none =>
    .ifChain (f p) (t.change f g) (changeBlock f g body) (changeClauses f g cs) none
  | .ifChain p t body cs (some rest) =>
    .ifChain (f p) (t.change f g) (changeBlock f g body) (changeClauses f g cs) (some (changeBlock f g rest))
  | .whileLoop p t body => .whileLoop (f p) (t.change f g) (changeBlock f g body)
  | .rangeLoop p name low op high body =>
    .rangeLoop (f p) name (low.change f g) op (high.change f g) (changeBlock f g body)
  | .eachLoop p names e body => .eachLoop (f p) names (e.change f g) (changeBlock f g body)
  | .print p es => .print (f p) (changeExprs f g es)
  | .ret p value => .ret (f p) (value.map (Expr.change f g))
  | .brk p => .brk (f p)
  | .assign p t e => .assign (f p) (t.change f g) (e.change f g)
  | .addAssign p t e => .addAssign (f p) (t.change f g) (e.change f g)
  | .bump p t op => .bump (f p) (t.change f g) op
  | .call p callee args => .call (f p) (callee.change f g) (args.map (changeExprs f g))
  | .unknown p kind => .unknown (f p) kind
  | .absent part => .absent part
  | .incomplete part => .incomplete part

def changeBlock (f : Pos → Pos) (g : String → String) : List Stmt → List Stmt
  | [] => []
  | s :: ss => s.change f g :: changeBlock f g ss

def changeClauses (f : Pos → Pos) (g : String → String) : List ElseIf → List ElseIf
  | [] => []
  | .mk p t body :: cs => .mk (f p) (t.change f g) (changeBlock f g body) :: changeClauses f g cs

end

section Changes

variable {f : Pos → Pos} {g : String → String}

theorem changeExprs_eq_map (es : List Expr) : changeExprs f g es = es.map (·.change f g) := by
  induction es with
  | nil => rfl
  | cons e es ih => rw [changeExprs, ih, List.map_cons]

theorem Stmt.change_ifChain (p : Pos) (t : Expr) (body : List Stmt) (cs : List ElseIf)
    (rest : Option (List Stmt)) :
    (Stmt.ifChain p t body cs rest).change f g =
      .ifChain (f p) (t.change f g) (changeBlock f g body) (changeClauses f g cs)
        (rest.map (changeBlock f g)) := by
  cases rest <;> rfl

/-! Two changes, one behind the other, are one change. -/

variable {f' : Pos → Pos} {g' : String → String}

theorem TypeExpr.move_move (t : TypeExpr) : (t.move f).move f' = t.move (f' ∘ f) := by
  induction t with
  | array p base ih => exact congrArg (TypeExpr.array _) ih
  | dict p key value ihk ihv => exact congrArg₂ (TypeExpr.dict _) ihk ihv
  | optional p base ih => exact congrArg (TypeExpr.optional _) ih
  | _ => rfl

theorem option_type_move_move (o : Option TypeExpr) :
    (o.map (·.move f)).map (·.move f') = o.map (·.move (f' ∘ f)) := by
  simp [Function.comp_def, TypeExpr.move_move]

theorem Param.move_move (q : Param) : (q.move f).move f' = q.move (f' ∘ f) := by
  simp [Param.move, Function.comp_def, TypeExpr.move_move]

mutual

theorem Expr.change_change (e : Expr) : (e.change f g).change f' g' = e.change (f' ∘ f) (g' ∘ g) := by
  cases e with
  | paren p e => exact congrArg (Expr.paren _) e.change_change
  | binary p op l r => exact congrArg₂ (Expr.binary _ op) l.change_change r.change_change
  | unary p op e => exact congrArg (Expr.unary _ op) e.change_change
  | call p callee args =>
    cases args with
    | none => exact congrArg (Expr.call _ · none) callee.change_change
    | some args =>
      exact congrArg₂ (fun c as => Expr.call _ c (some as)) callee.change_change (changeExprs_change args)
  | member p o op name => exact congrArg (Expr.member _ · op name) o.change_change
  | array p es => exact congrArg (Expr.array _) (changeExprs_change es)
  | tuple p es => exact congrArg (Expr.tuple _) (changeExprs_change es)
  | dict p es => exact congrArg (Expr.dict _) (changeEntries_change es)
  | emptyArray p t => exact congrArg (Expr.emptyArray _) t.move_move
  | emptyOptional p t => exact congrArg (Expr.emptyOptional _) t.move_move
  | _ => rfl

theorem changeExprs_change (es : List Expr) :
    changeExprs f' g' (changeExprs f g es) = changeExprs (f' ∘ f) (g' ∘ g) es := by
  cases es with
  | nil => rfl
  | cons e es => exact congrArg₂ List.cons e.change_change (changeExprs_change es)

theorem changeEntries_change (es : List Entry) :
    changeEntries f' g' (changeEntries f g es) = changeEntries (f' ∘ f) (g' ∘ g) es := by
  cases es with
  | nil => rfl
  | cons e es =>
    obtain ⟨p, k, v⟩ := e
    exact congrArg₂ List.cons (congrArg₂ (Entry.mk _) k.change_change v.change_change) (changeEntries_change es)

end

theorem option_change_change (o : Option Expr) :
    (o.map (Expr.change f g)).map (Expr.change f' g') = o.map (Expr.change (f' ∘ f) (g' ∘ g)) := by
  simp [Function.comp_def, Expr.change_change]

mutual

theorem Stmt.change_change (s : Stmt) : (s.change f g).change f' g' = s.change (f' ∘ f) (g' ∘ g) := by
  cases s with
  | varDecl p t name init => simp only [Stmt.change, option_type_move_move, option_change_change, Function.comp]
  | collection p name e => exact congrArg (Stmt.collection _ name) e.change_change
  | function p name ps returns body =>
    have hparams : (ps.map (·.map (·.move f))).map (·.map (·.move f')) = ps.map (·.map (·.move (f' ∘ f))) := by
      simp [Function.comp_def, Param.move_move]
    simp only [Stmt.change, hparams, option_type_move_move, changeBlock_change body, Function.comp]
  | classDecl p name body => exact congrArg (Stmt.classDecl _ name) (changeBlock_change body)
  | ifChain p t body cs rest =>
    cases rest with
    | none =>
      simp only [Stmt.change, t.change_change, changeBlock_change body, changeClauses_change cs, Function.comp]
    | some rest =>
      simp only [Stmt.change, t.change_change, changeBlock_change body, changeClauses_change cs,
        changeBlock_change rest, Function.comp]
  | whileLoop p t body => exact congrArg₂ (Stmt.whileLoop _) t.change_change (changeBlock_change body)
  | rangeLoop p name low op high body =>
    simp only [Stmt.change, low.change_change, high.change_change, changeBlock_change body, Function.comp]
  | eachLoop p names e body =>
    exact congrArg₂ (Stmt.eachLoop _ names) e.change_change (changeBlock_change body)
  | print p es => exact congrArg (Stmt.print _) (changeExprs_change es)
  | ret p value => exact congrArg (Stmt.ret _) (option_change_change value)
  | assign p t e => exact congrArg₂ (Stmt.assign _) t.change_change e.change_change
  | addAssign p t e => exact congrArg₂ (Stmt.addAssign _) t.change_change e.change_change
  | bump p t op => exact congrArg (Stmt.bump _ · op) t.change_change
  | call p callee args =>
    have hargs : (args.map (changeExprs f g)).map (changeExprs f' g') =
        args.map (changeExprs (f' ∘ f) (g' ∘ g)) := by
      simp [Function.comp_def, changeExprs_change]
    exact congrArg₂ (Stmt.call _) callee.change_change hargs
  | _ => rfl

theorem changeBlock_change (ss : List Stmt) :
    changeBlock f' g' (changeBlock f g ss) = changeBlock (f' ∘ f) (g' ∘ g) ss := by
  cases ss with
  | nil => rfl
  | cons s ss => exact congrArg₂ List.cons s.change_change (changeBlock_change ss)

theorem changeClauses_change (cs : List ElseIf) :
    changeClauses f' g' (changeClauses f g cs) = changeClauses (f' ∘ f) (g' ∘ g) cs := by
  cases cs with
  | nil => rfl
  | cons c cs =>
    obtain ⟨p, t, body⟩ := c
    exact congrArg₂ List.cons (congrArg₂ (ElseIf.mk _) t.change_change (changeBlock_change body))
      (changeClauses_change cs)

end

end Changes

/-! ### Trees that keep their string literals -/

section Moves

variable (f : Pos → Pos)

def Expr.move (e : Expr) : Expr := e.change f id

def moveExprs (es : List Expr) : List Expr := changeExprs f id es

def moveEntries (es : List Entry) : List Entry := changeEntries f id es

def Stmt.move (s : Stmt) : Stmt := s.change f id

def moveBlock (ss : List Stmt) : List Stmt := changeBlock f id ss

def moveClauses (cs : List ElseIf) : List ElseIf := changeClauses f id cs

end Moves

section Moves

variable {f : Pos → Pos}

theorem length_moveExprs (es : List Expr) : (moveExprs f es).length = es.length := by
  rw [moveExprs, changeExprs_eq_map, List.length_map]

theorem Expr.move_call (p : Pos) (callee : Expr) (args : Option (List Expr)) :
    (Expr.call p callee args).move f = .call (f p) (callee.move f) (args.map (moveExprs f)) := by
  cases args <;> rfl

/-- Only a part that is missing has no place of its own. -/
theorem Expr.pos_move {e : Expr} (h : ∀ part, e ≠ .absent part) : (e.move f).pos = f e.pos := by
  cases e with
  | call p callee args => cases args <;> rfl
  | absent part => exact absurd rfl (h part)
  | _ => rfl

end Moves

/-! ### Trees without places -/

def TypeExpr.bare (t : TypeExpr) : TypeExpr := t.move fun _ => .unknown

def Expr.bare (e : Expr) : Expr := e.move fun _ => .unknown

def bareExprs (es : List Expr) : List Expr := moveExprs (fun _ => .unknown) es

def bareEntries (es : List Entry) : List Entry := moveEntries (fun _ => .unknown) es

def bareBlock (ss : List Stmt) : List Stmt := moveBlock (fun _ => .unknown) ss

theorem bare_moveBlock {f : Pos → Pos} (ss : List Stmt) : bareBlock (moveBlock f ss) = bareBlock ss :=
  changeBlock_change ss

end Snack.Tree
