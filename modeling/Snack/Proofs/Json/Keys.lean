import Snack.Core.Dump
import Snack.Proofs.Json.Written
import Snack.Proofs.Steps
import Snack.Tree.Dump

/-! No node of a dump has two parts of one name. -/

namespace Snack

open Json (Distinct)

namespace Json

attribute [simp] Distinct.null Distinct.bool Distinct.int Distinct.float Distinct.str

@[simp] theorem distinct_arr {items : List Json} : Distinct (arr items) ↔ ∀ j ∈ items, Distinct j :=
  ⟨fun h => by cases h; assumption, .arr⟩

@[simp] theorem distinct_obj {fields : List (String × Json)} :
    Distinct (obj fields) ↔ (fields.map Prod.fst).Nodup ∧ ∀ f ∈ fields, Distinct f.2 :=
  ⟨fun h => by cases h; constructor <;> assumption, fun h => .obj h.1 h.2⟩

@[simp] theorem distinct_ofOption {α : Type} {f : α → Json} {o : Option α} (h : ∀ a, Distinct (f a)) :
    Distinct (ofOption f o) := by
  cases o with
  | none => exact .null
  | some a => exact h a

end Json

/-! ### Trees -/

namespace Tree

@[simp] theorem TypeExpr.distinct (t : TypeExpr) : Distinct t.toJson := by
  induction t <;> simp_all [TypeExpr.toJson, node]

mutual

theorem Expr.distinct (e : Expr) : Distinct e.toJson := by
  cases e with
  | paren p e => simp [Expr.toJson, node, e.distinct]
  | binary p op l r => simp [Expr.toJson, node, l.distinct, r.distinct]
  | unary p op e => simp [Expr.toJson, node, e.distinct]
  | call p callee args =>
    cases args with
    | none => simp [Expr.toJson, node, callee.distinct]
    | some args => simpa [Expr.toJson, node, callee.distinct] using distinct_exprs args
  | member p o op name => simp [Expr.toJson, node, o.distinct]
  | array p es => simpa [Expr.toJson, node] using distinct_exprs es
  | tuple p es => simpa [Expr.toJson, node] using distinct_exprs es
  | dict p es => simpa [Expr.toJson, node] using distinct_entries es
  | _ => simp [Expr.toJson, node]

theorem distinct_exprs (es : List Expr) : ∀ j ∈ Expr.listToJson es, Distinct j := by
  cases es with
  | nil => simp [Expr.listToJson]
  | cons e es => exact List.forall_mem_cons.2 ⟨e.distinct, distinct_exprs es⟩

theorem distinct_entries (es : List Entry) : ∀ j ∈ Entry.listToJson es, Distinct j := by
  cases es with
  | nil => simp [Entry.listToJson]
  | cons e es =>
    obtain ⟨p, k, v⟩ := e
    exact List.forall_mem_cons.2 ⟨by simp [node, k.distinct, v.distinct], distinct_entries es⟩

end

theorem Param.distinct (q : Param) : Distinct q.toJson := by simp [Param.toJson, node]

mutual

theorem Stmt.distinct (s : Stmt) : Distinct s.toJson := by
  cases s with
  | varDecl p t name init => simp [Stmt.toJson, node, Expr.distinct]
  | collection p name e => simp [Stmt.toJson, node, e.distinct]
  | function p name ps returns body =>
    cases ps with
    | none => simpa [Stmt.toJson, node] using distinct_block body
    | some ps => simpa [Stmt.toJson, node, Param.distinct] using distinct_block body
  | classDecl p name body => simpa [Stmt.toJson, node] using distinct_block body
  | ifChain p t body cs rest =>
    cases rest with
    | none => simpa [Stmt.toJson, node, t.distinct] using ⟨distinct_block body, distinct_clauses cs⟩
    | some rest =>
      simpa [Stmt.toJson, node, t.distinct] using ⟨distinct_block body, distinct_clauses cs, distinct_block rest⟩
  | whileLoop p t body => simpa [Stmt.toJson, node, t.distinct] using distinct_block body
  | rangeLoop p name low op high body =>
    simpa [Stmt.toJson, node, low.distinct, high.distinct] using distinct_block body
  | eachLoop p names e body => simpa [Stmt.toJson, node, e.distinct] using distinct_block body
  | print p es => simp [Stmt.toJson, node, Expr.distinct]
  | ret p value => simp [Stmt.toJson, node, Expr.distinct]
  | assign p t e => simp [Stmt.toJson, node, Expr.distinct]
  | addAssign p t e => simp [Stmt.toJson, node, Expr.distinct]
  | bump p t op => simp [Stmt.toJson, node, Expr.distinct]
  | call p callee args => exact (Expr.call p callee args).distinct
  | _ => simp [Stmt.toJson, node]

theorem distinct_block (ss : List Stmt) : ∀ j ∈ Stmt.listToJson ss, Distinct j := by
  cases ss with
  | nil => simp [Stmt.listToJson]
  | cons s ss => exact List.forall_mem_cons.2 ⟨s.distinct, distinct_block ss⟩

theorem distinct_clauses (cs : List ElseIf) : ∀ j ∈ ElseIf.listToJson cs, Distinct j := by
  cases cs with
  | nil => simp [ElseIf.listToJson]
  | cons c cs =>
    obtain ⟨p, t, body⟩ := c
    exact List.forall_mem_cons.2 ⟨by simpa [node, t.distinct] using distinct_block body, distinct_clauses cs⟩

end

theorem Program.distinct (p : Program) : Distinct p.toJson := by
  simpa [Program.toJson, node] using distinct_block p

end Tree

/-! ### Typed programs -/

namespace Core

/-- What is dumped has a property. -/
def Gives {α : Type} (x : Dumped α) (P : α → Prop) : Prop := ∀ a, x = .ok a → P a

section

variable {α β : Type} {x : Dumped α} {f : α → Dumped β} {P : α → Prop} {Q : β → Prop}

theorem Gives.pure {a : α} (h : P a) : Gives (pure a) P := fun _ hb => except_pure_ok.1 hb ▸ h

theorem Gives.bind (hx : Gives x P) (hf : ∀ a, P a → Gives (f a) Q) : Gives (x >>= f) Q := by
  intro b hb
  obtain ⟨a, ha, hb⟩ := except_bind_ok.1 hb
  exact hf a (hx a ha) b hb

theorem Gives.throw (e : DumpError) : Gives (throw e) P := fun _ h => absurd h except_throw_ok

theorem Gives.nil : Gives (Pure.pure []) (∀ j ∈ ·, Distinct j) := .pure (by simp)

theorem Gives.cons {x : Dumped Json} {xs : Dumped (List Json)} (hx : Gives x Distinct)
    (hxs : Gives xs (∀ j ∈ ·, Distinct j)) : Gives (return (← x) :: (← xs)) (∀ j ∈ ·, Distinct j) :=
  hx.bind fun _ h => hxs.bind fun _ hs => .pure (List.forall_mem_cons.2 ⟨h, hs⟩)

end

mutual

theorem gives_ty (t : Ty) : Gives (dumpTy t) Distinct := by
  cases t with
  | prim p => exact .pure (by simp [node])
  | array t => exact (gives_ty t).bind fun _ h => .pure (by simp [node, h])
  | dict k v => exact (gives_ty k).bind fun _ hk => (gives_ty v).bind fun _ hv => .pure (by simp [node, hk, hv])
  | tuple ts => exact (gives_tys ts).bind fun _ h => .pure (by simpa [node] using h)
  | optional t => exact (gives_ty t).bind fun _ h => .pure (by simp [node, h])
  | function ps r =>
    exact (gives_tys ps).bind fun _ hp => (gives_ty r).bind fun _ hr => .pure (by simpa [node, hr] using hp)
  | struct s => exact .pure (by simp [node])
  | other tag => exact .throw _

theorem gives_tys (ts : List Ty) : Gives (dumpTys ts) (∀ j ∈ ·, Distinct j) := by
  cases ts with
  | nil => exact .nil
  | cons t ts => exact (gives_ty t).cons (gives_tys ts)

end

theorem gives_entity (e : Entity) : Gives (dumpEntity e) Distinct := by
  unfold dumpEntity
  split
  · exact (gives_ty e.typ).bind fun _ h => .pure (by simp [node, h])
  · exact (gives_ty e.typ).bind fun _ h => .pure (by simp [node, h])
  · exact (gives_ty e.typ).bind fun _ h => .pure (by simp [node, h])
  · exact .pure (by simp [node])
  · exact .pure (by simp [node])
  · exact .pure (by simp [node])
  · exact .throw _

theorem gives_entities (es : List Entity) : Gives (dumpEntities es) (∀ j ∈ ·, Distinct j) := by
  induction es with
  | nil => exact .nil
  | cons e es ih => exact (gives_entity e).cons ih

mutual

theorem gives_expr (e : Expr) : Gives (dumpExpr e) Distinct := by
  cases e with
  | int | float | str | bool => exact .pure (by simp [node])
  | ref e => exact gives_entity e
  | binary op l r t =>
    exact (gives_expr l).bind fun _ hl => (gives_expr r).bind fun _ hr => (gives_ty t).bind fun _ ht =>
      .pure (by simp [node, hl, hr, ht])
  | unary op e t =>
    exact (gives_expr e).bind fun _ he => (gives_ty t).bind fun _ ht => .pure (by simp [node, he, ht])
  | call f args t =>
    exact (gives_expr f).bind fun _ hf => (gives_exprs args).bind fun _ ha => (gives_ty t).bind fun _ ht =>
      .pure (by simpa [node, hf, ht] using ha)
  | construct c args =>
    exact (gives_entity c).bind fun _ hc => (gives_exprs args).bind fun _ ha =>
      .pure (by simpa [node, hc] using ha)
  | member o op field t =>
    exact (gives_expr o).bind fun _ ho => (gives_ty t).bind fun _ ht => .pure (by simp [node, ho, ht])
  | array es t =>
    exact (gives_exprs es).bind fun _ he => (gives_ty t).bind fun _ ht => .pure (by simpa [node, ht] using he)
  | tuple es t =>
    exact (gives_exprs es).bind fun _ he => (gives_ty t).bind fun _ ht => .pure (by simpa [node, ht] using he)
  | dict es t =>
    exact (gives_entries es).bind fun _ he => (gives_ty t).bind fun _ ht => .pure (by simpa [node, ht] using he)
  | emptyArray t => exact (gives_ty t).bind fun _ ht => .pure (by simp [node, ht])
  | emptyOptional t => exact (gives_ty t).bind fun _ ht => .pure (by simp [node, ht])
  | other tag t => exact .throw _

theorem gives_exprs (es : List Expr) : Gives (dumpExprs es) (∀ j ∈ ·, Distinct j) := by
  cases es with
  | nil => exact .nil
  | cons e es => exact (gives_expr e).cons (gives_exprs es)

theorem gives_entries (es : List (Expr × Expr)) : Gives (dumpEntries es) (∀ j ∈ ·, Distinct j) := by
  cases es with
  | nil => exact .nil
  | cons e es =>
    obtain ⟨k, v⟩ := e
    exact (gives_expr k).bind fun _ hk => (gives_expr v).bind fun _ hv => (gives_entries es).bind fun _ hs =>
      .pure (List.forall_mem_cons.2 ⟨by simp [hk, hv], hs⟩)

end

theorem gives_option (e : Option Expr) : Gives (dumpExpr? e) Distinct := by
  cases e with
  | none => exact .pure .null
  | some e => exact gives_expr e

theorem gives_fields (fs : List Field) : Gives (dumpFields fs) (∀ j ∈ ·, Distinct j) := by
  induction fs with
  | nil => exact .nil
  | cons f fs ih =>
    exact (gives_ty f.typ).bind fun _ ht => ih.bind fun _ hs => .pure (List.forall_mem_cons.2 ⟨by simp [ht], hs⟩)

@[simp] theorem distinct_pos (p : Pos) : Distinct (dumpPos p) := by simp [dumpPos, node]

mutual

theorem gives_stmt (s : Stmt) : Gives (dumpStmt s) Distinct := by
  cases s with
  | declare v init p =>
    exact (gives_entity v).bind fun _ hv => (gives_option init).bind fun _ hi => .pure (by simp [node, hv, hi])
  | function f p => exact (gives_function f).bind fun _ hf => .pure (by simp [node, hf])
  | classDecl c fields methods p =>
    exact (gives_fields fields).bind fun _ hf => (gives_functions methods).bind fun _ hm =>
      .pure (by simpa [node] using ⟨hf, hm⟩)
  | assign t e p =>
    exact (gives_expr t).bind fun _ ht => (gives_expr e).bind fun _ he => .pure (by simp [node, ht, he])
  | addAssign t e p =>
    exact (gives_expr t).bind fun _ ht => (gives_expr e).bind fun _ he => .pure (by simp [node, ht, he])
  | increment t p => exact (gives_expr t).bind fun _ ht => .pure (by simp [node, ht])
  | decrement t p => exact (gives_expr t).bind fun _ ht => .pure (by simp [node, ht])
  | ifElse t body rest p =>
    exact (gives_expr t).bind fun _ ht => (gives_stmts body).bind fun _ hb => (gives_else rest).bind fun _ hr =>
      .pure (by simpa [node, ht, hr] using hb)
  | whileLoop t body p =>
    exact (gives_expr t).bind fun _ ht => (gives_stmts body).bind fun _ hb => .pure (by simpa [node, ht] using hb)
  | rangeLoop i low op high body p =>
    exact (gives_entity i).bind fun _ hi => (gives_expr low).bind fun _ hl => (gives_expr high).bind fun _ hh =>
      (gives_stmts body).bind fun _ hb => .pure (by simpa [node, hi, hl, hh] using hb)
  | eachLoop is c body p =>
    exact (gives_entities is).bind fun _ hi => (gives_expr c).bind fun _ hc => (gives_stmts body).bind fun _ hb =>
      .pure (by simpa [node, hc] using ⟨hi, hb⟩)
  | ret value p => exact (gives_option value).bind fun _ hv => .pure (by simp [node, hv])
  | brk p => exact .pure (by simp [node])
  | print es p => exact (gives_exprs es).bind fun _ he => .pure (by simpa [node] using he)
  | call e p => exact (gives_expr e).bind fun _ he => .pure (by simp [node, he])
  | other tag p => exact .throw _

theorem gives_stmts (ss : List Stmt) : Gives (dumpStmts ss) (∀ j ∈ ·, Distinct j) := by
  cases ss with
  | nil => exact .nil
  | cons s ss => exact (gives_stmt s).cons (gives_stmts ss)

theorem gives_else (e : Else) : Gives (dumpElse e) Distinct := by
  cases e with
  | none => exact .pure .null
  | block body => exact (gives_stmts body).bind fun _ hb => .pure (.arr hb)
  | elseIf t body rest p =>
    exact (gives_expr t).bind fun _ ht => (gives_stmts body).bind fun _ hb => (gives_else rest).bind fun _ hr =>
      .pure (by simpa [node, ht, hr] using hb)

theorem gives_function (f : Function) : Gives (dumpFunction f) Distinct := by
  cases f with
  | mk e params body p =>
    exact (gives_entities params).bind fun _ hp => (gives_ty e.typ).bind fun _ ht => (gives_stmts body).bind fun _ hb =>
      .pure (by simpa [node, ht] using ⟨hp, hb⟩)

theorem gives_functions (fs : List Function) : Gives (dumpFunctions fs) (∀ j ∈ ·, Distinct j) := by
  cases fs with
  | nil => exact .nil
  | cons f fs => exact (gives_function f).cons (gives_functions fs)

end

theorem Program.gives_dump (p : Program) : Gives p.dump Distinct :=
  (gives_stmts p.statements).bind fun _ hs => .pure (by simpa [node] using hs)

end Core

end Snack
