import Snack.Prim
import Snack.Proofs.Token.Scan
import Snack.Tree.Basic

/-! Trees as a source text gives them: no part is missing, every operator and every primitive type is known,
every number is the spelling of one, and every name that is declared or behind a point is a word. -/

namespace Snack.Tree

open Token (Word)

def Entry.key : Entry → Expr
  | .mk _ k _ => k

def Entry.value : Entry → Expr
  | .mk _ _ v => v

def ElseIf.test : ElseIf → Expr
  | .mk _ t _ => t

def ElseIf.body : ElseIf → List Stmt
  | .mk _ _ b => b

inductive TypeExpr.Formed : TypeExpr → Prop where
  | named {p name} (h : (Prim.ofText? name).isSome = true) : Formed (.named p name)
  | array {p base} (h : Formed base) : Formed (.array p base)
  | dict {p key value} (hk : Formed key) (hv : Formed value) : Formed (.dict p key value)
  | optional {p base} (h : Formed base) : Formed (.optional p base)
  | ref {p name} : Formed (.ref p name)

inductive Expr.Formed : Expr → Prop where
  | num {p text} (h : Numeral.Readable text) : Formed (.num p text)
  | str {p value} : Formed (.str p value)
  | bool {p value} : Formed (.bool p value)
  | var {p name} : Formed (.var p name)
  | paren {p e} (h : Formed e) : Formed (.paren p e)
  | binary {p op l r} (hop : ∀ text, op ≠ .other text) (hl : Formed l) (hr : Formed r) :
      Formed (.binary p op l r)
  | unary {p op e} (hop : op ∈ [.neg, .not]) (h : Formed e) : Formed (.unary p op e)
  | call {p f args} (hf : Formed f) (ha : ∀ a ∈ args, Formed a) : Formed (.call p f (some args))
  | member {p o op name} (hop : op ∈ [.direct, .ifPresent]) (hn : Word name) (ho : Formed o) :
      Formed (.member p o (some op) (some name))
  | array {p es} (h : ∀ e ∈ es, Formed e) : Formed (.array p es)
  | tuple {p es} (h : ∀ e ∈ es, Formed e) : Formed (.tuple p es)
  | dict {p es} (hk : ∀ e ∈ es, Formed e.key) (hv : ∀ e ∈ es, Formed e.value) : Formed (.dict p es)
  | emptyArray {p t} (h : t.Formed) : Formed (.emptyArray p t)
  | emptyOptional {p t} (h : t.Formed) : Formed (.emptyOptional p t)

/-- A parameter with a name. -/
structure Param.Formed (q : Param) : Prop where
  type : ∀ t ∈ q.type, t.Formed
  name : q.name.isSome = true
  word : ∀ s ∈ q.name, Word s

inductive Stmt.Formed : Stmt → Prop where
  | varDecl {p t name init} (hn : Word name) (ht : ∀ u ∈ t, u.Formed) (hi : ∀ e ∈ init, e.Formed) :
      Formed (.varDecl p t name init)
  | collection {p name e} (hn : Word name) (h : e.Formed) : Formed (.collection p name e)
  | function {p name ps returns body} (hn : Word name) (hp : ∀ qs ∈ ps, ∀ q ∈ qs, q.Formed)
      (hr : ∀ t ∈ returns, t.Formed)
      (hb : ∀ s ∈ body, Formed s) : Formed (.function p name ps returns body)
  | classDecl {p name body} (hn : Word name) (hb : ∀ s ∈ body, Formed s) : Formed (.classDecl p name body)
  | ifChain {p t body cs rest} (ht : t.Formed) (hb : ∀ s ∈ body, Formed s)
      (hct : ∀ c ∈ cs, c.test.Formed)
      (hcb : ∀ c ∈ cs, ∀ s ∈ c.body, Formed s) (hr : ∀ b ∈ rest, ∀ s ∈ b, Formed s) :
      Formed (.ifChain p t body cs rest)
  | whileLoop {p t body} (ht : t.Formed) (hb : ∀ s ∈ body, Formed s) : Formed (.whileLoop p t body)
  | rangeLoop {p name low op high body} (hn : Word name) (hl : low.Formed) (hop : op ∈ [.through, .below])
      (hh : high.Formed)
      (hb : ∀ s ∈ body, Formed s) : Formed (.rangeLoop p (some name) low (some op) high body)
  | eachLoop {p names e body} (hn : ∀ s ∈ names, Word s) (he : e.Formed) (hb : ∀ s ∈ body, Formed s) :
      Formed (.eachLoop p (some names) e body)
  | print {p es} (h : ∀ e ∈ es, e.Formed) : Formed (.print p es)
  | ret {p value} (h : ∀ e ∈ value, e.Formed) : Formed (.ret p value)
  | brk {p} : Formed (.brk p)
  | assign {p t e} (ht : t.Formed) (he : e.Formed) : Formed (.assign p t e)
  | addAssign {p t e} (ht : t.Formed) (he : e.Formed) : Formed (.addAssign p t e)
  | bump {p t op} (ht : t.Formed) : Formed (.bump p t (some op))
  | call {p f args} (hf : f.Formed) (ha : ∀ a ∈ args, a.Formed) : Formed (.call p f (some args))

end Snack.Tree
