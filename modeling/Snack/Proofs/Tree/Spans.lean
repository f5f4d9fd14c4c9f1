import Snack.Token.Basic
import Snack.Tree.Basic

/-! The tokens that a node of a tree was read from. They are those of its parts, with the tokens of the node
itself before, between and behind them, and the place of the node is that of the first. -/

namespace Snack.Tree

/-! ### Runs of tokens -/

/-- The first of the tokens stands at `p`. -/
def StartsAt (p : Pos) (cs : List Token) : Prop := ∃ t ts, cs = t :: ts ∧ t.pos = p

section Runs

variable {α : Type} (R : α → List Token → Prop)

/-- One behind the other. -/
inductive InRow : List α → List Token → Prop where
  | nil : InRow [] []
  | cons {a as cs ds} (h : R a cs) (hs : InRow as ds) : InRow (a :: as) (cs ++ ds)

/-- Each behind a comma. -/
inductive AfterCommas : List α → List Token → Prop where
  | nil : AfterCommas [] []
  | cons {t a as cs ds} (ht : t.spells "," = true) (h : R a cs) (hs : AfterCommas as ds) :
      AfterCommas (a :: as) (t :: (cs ++ ds))

/-- With commas between them. -/
inductive Separated : List α → List Token → Prop where
  | nil : Separated [] []
  | cons {a as cs ds} (h : R a cs) (hs : AfterCommas R as ds) : Separated (a :: as) (cs ++ ds)

/-- With commas between them; one more may stand behind the last. -/
inductive Terminated : List α → List Token → Prop where
  | nil : Terminated [] []
  | last {a cs} (h : R a cs) : Terminated [a] cs
  | cons {a as cs t ds} (h : R a cs) (ht : t.spells "," = true) (hs : Terminated as ds) :
      Terminated (a :: as) (cs ++ t :: ds)

/-- What may be left out. -/
inductive IfAny : Option α → List Token → Prop where
  | none : IfAny none []
  | some {a cs} (h : R a cs) : IfAny (some a) cs

/-- Behind the token `s`. -/
inductive Behind (s : String) : α → List Token → Prop where
  | mk {t a cs} (ht : t.spells s = true) (h : R a cs) : Behind s a (t :: cs)

/-- Between the tokens `s` and `s'`. -/
inductive Between (s s' : String) : α → List Token → Prop where
  | mk {t a cs u} (ht : t.spells s = true) (h : R a cs) (hu : u.spells s' = true) :
      Between s s' a (t :: (cs ++ [u]))

end Runs

/-- A name by itself. -/
inductive Named : String → List Token → Prop where
  | mk {t} (h : t.kind = .ident) : Named t.text [t]

/-! ### Nodes -/

inductive TypeExpr.Spans : TypeExpr → List Token → Prop where
  | named {t} (h : t.kind = .type) : Spans (.named t.pos t.text) [t]
  | array {t base cs u} (ht : t.spells "[" = true) (hb : Spans base cs) (hu : u.spells "]" = true) :
      Spans (.array t.pos base) (t :: (cs ++ [u]))
  | dict {t key cs u value ds v} (ht : t.spells "\x7b" = true) (hk : Spans key cs) (hu : u.spells ":" = true)
      (hv : Spans value ds) (hw : v.spells "\x7d" = true) :
      Spans (.dict t.pos key value) (t :: (cs ++ u :: (ds ++ [v])))
  | optional {p base cs t} (hp : StartsAt p cs) (hb : Spans base cs) (ht : t.spells "?" = true) :
      Spans (.optional p base) (cs ++ [t])
  | ref {t} (h : t.kind = .ident) : Spans (.ref t.pos t.text) [t]

mutual

inductive Expr.Spans : Expr → List Token → Prop where
  | num {t} (h : t.kind = .number) : Expr.Spans (.num t.pos t.text) [t]
  | str {t} (h : t.kind = .string) : Expr.Spans (.str t.pos t.text) [t]
  | bool {t value} (h : t.spells (if value then Keyword.true.text else Keyword.false.text) = true) :
      Expr.Spans (.bool t.pos value) [t]
  | var {t} (h : t.kind = .ident) : Expr.Spans (.var t.pos t.text) [t]
  | paren {t e cs u} (ht : t.spells "(" = true) (he : Expr.Spans e cs) (hu : u.spells ")" = true) :
      Expr.Spans (.paren t.pos e) (t :: (cs ++ [u]))
  | binary {p op l cs t r ds} (hp : StartsAt p cs) (hl : Expr.Spans l cs) (ht : t.spells op.text = true)
      (hr : Expr.Spans r ds) : Expr.Spans (.binary p op l r) (cs ++ t :: ds)
  | unary {t op e cs} (ht : t.spells op.text = true) (he : Expr.Spans e cs) :
      Expr.Spans (.unary t.pos op e) (t :: cs)
  | call {p f cs args ds} (hp : StartsAt p cs) (hf : Expr.Spans f cs)
      (ha : Between (Separated Expr.Spans) "(" ")" args ds) : Expr.Spans (.call p f (some args)) (cs ++ ds)
  | member {p o cs op t u} (hp : StartsAt p cs) (ho : Expr.Spans o cs) (ht : t.spells op.text = true)
      (hu : u.kind = .ident) : Expr.Spans (.member p o (some op) (some u.text)) (cs ++ [t, u])
  | array {t es cs u} (ht : t.spells "[" = true) (he : Separated Expr.Spans es cs)
      (hu : u.spells "]" = true) : Expr.Spans (.array t.pos es) (t :: (cs ++ [u]))
  | tuple {t es cs u} (ht : t.spells "(" = true) (he : Separated Expr.Spans es cs)
      (hu : u.spells ")" = true) : Expr.Spans (.tuple t.pos es) (t :: (cs ++ [u]))
  | dict {t es cs u} (ht : t.spells "\x7b" = true) (he : Terminated Entry.Spans es cs)
      (hu : u.spells "\x7d" = true) : Expr.Spans (.dict t.pos es) (t :: (cs ++ [u]))
  | emptyArray {t type cs u} (ht : t.spells "[" = true) (hy : type.Spans cs) (hu : u.spells "]" = true) :
      Expr.Spans (.emptyArray t.pos type) (t :: (cs ++ [u]))
  | emptyOptional {t type cs} (ht : t.spells Keyword.none.text = true) (hy : type.Spans cs) :
      Expr.Spans (.emptyOptional t.pos type) (t :: cs)

inductive Entry.Spans : Entry → List Token → Prop where
  | mk {p key cs t value ds} (hp : StartsAt p cs) (hk : Expr.Spans key cs) (ht : t.spells ":" = true)
      (hv : Expr.Spans value ds) : Entry.Spans (.mk p key value) (cs ++ t :: ds)

end

inductive Param.Spans : Param → List Token → Prop where
  | mk {p type cs t} (hp : StartsAt p (cs ++ [t])) (hy : IfAny TypeExpr.Spans type cs)
      (ht : t.kind = .ident) : Spans ⟨p, type, some t.text⟩ (cs ++ [t])

mutual

inductive Stmt.Spans : Stmt → List Token → Prop where
  | varDecl {t type cs u init ds} (ht : t.spells Keyword.var.text = true)
      (hy : IfAny TypeExpr.Spans type cs) (hu : u.kind = .ident)
      (hi : IfAny (Behind Expr.Spans "=") init ds) :
      Stmt.Spans (.varDecl t.pos type u.text init) (t :: (cs ++ u :: ds))
  | collection {t u v e cs} (ht : t.spells Keyword.collection.text = true) (hu : u.kind = .ident)
      (hv : v.spells "=" = true) (he : Expr.Spans e cs) :
      Stmt.Spans (.collection t.pos u.text e) (t :: u :: v :: cs)
  | function {t u params cs returns ds body es} (ht : t.spells Keyword.function.text = true)
      (hu : u.kind = .ident) (hp : IfAny (Between (Separated Param.Spans) "(" ")") params cs)
      (hr : IfAny (Behind TypeExpr.Spans "->") returns ds)
      (hb : Between (InRow Stmt.Spans) ":" ";" body es) :
      Stmt.Spans (.function t.pos u.text params returns body) (t :: u :: (cs ++ (ds ++ es)))
  | classDecl {t u body cs} (ht : t.spells Keyword.classDecl.text = true) (hu : u.kind = .ident)
      (hb : Between (InRow Stmt.Spans) ":" ";" body cs) :
      Stmt.Spans (.classDecl t.pos u.text body) (t :: u :: cs)
  | ifChain {t test cs body ds clauses es rest fs} (ht : t.spells Keyword.ifBranch.text = true)
      (he : Expr.Spans test cs) (hb : Between (InRow Stmt.Spans) ":" ";" body ds)
      (hc : InRow ElseIf.Spans clauses es)
      (hr : IfAny (Behind (Between (InRow Stmt.Spans) ":" ";") Keyword.elseBranch.text) rest fs) :
      Stmt.Spans (.ifChain t.pos test body clauses rest) (t :: (cs ++ (ds ++ (es ++ fs))))
  | whileLoop {t test cs body ds} (ht : t.spells Keyword.whileLoop.text = true) (he : Expr.Spans test cs)
      (hb : Between (InRow Stmt.Spans) ":" ";" body ds) :
      Stmt.Spans (.whileLoop t.pos test body) (t :: (cs ++ ds))
  | rangeLoop {t u v low cs op w high ds body es} (ht : t.spells Keyword.forLoop.text = true)
      (hu : u.kind = .ident) (hv : v.spells Keyword.inside.text = true) (hl : Expr.Spans low cs)
      (hw : w.spells op.text = true) (hh : Expr.Spans high ds)
      (hb : Between (InRow Stmt.Spans) ":" ";" body es) :
      Stmt.Spans (.rangeLoop t.pos (some u.text) low (some op) high body)
        (t :: u :: v :: (cs ++ w :: (ds ++ es)))
  | eachLoop {t names cs u e ds body es} (ht : t.spells Keyword.forLoop.text = true)
      (hn : Separated Named names cs) (hu : u.spells Keyword.inside.text = true) (he : Expr.Spans e ds)
      (hb : Between (InRow Stmt.Spans) ":" ";" body es) :
      Stmt.Spans (.eachLoop t.pos (some names) e body) (t :: (cs ++ u :: (ds ++ es)))
  | print {t es cs} (ht : t.spells Keyword.print.text = true) (he : Separated Expr.Spans es cs) :
      Stmt.Spans (.print t.pos es) (t :: cs)
  | ret {t value cs} (ht : t.spells Keyword.ret.text = true) (hv : IfAny Expr.Spans value cs) :
      Stmt.Spans (.ret t.pos value) (t :: cs)
  /-- The text alone tells a break, so a string literal may be one. -/
  | brk {t} (ht : t.text = Keyword.brk.text) : Stmt.Spans (.brk t.pos) [t]
  | assign {p target cs t value ds} (hp : StartsAt p cs) (hx : Expr.Spans target cs)
      (ht : t.spells "=" = true) (hv : Expr.Spans value ds) :
      Stmt.Spans (.assign p target value) (cs ++ t :: ds)
  | addAssign {p target cs t value ds} (hp : StartsAt p cs) (hx : Expr.Spans target cs)
      (ht : t.spells "+=" = true) (hv : Expr.Spans value ds) :
      Stmt.Spans (.addAssign p target value) (cs ++ t :: ds)
  | bump {p target cs op t} (hp : StartsAt p cs) (hx : Expr.Spans target cs) (ht : t.spells op.text = true) :
      Stmt.Spans (.bump p target (some op)) (cs ++ [t])
  | call {p f args cs} (h : Expr.Spans (.call p f args) cs) : Stmt.Spans (.call p f args) cs

inductive ElseIf.Spans : ElseIf → List Token → Prop where
  | mk {t test cs body ds} (ht : t.spells Keyword.elseIf.text = true) (he : Expr.Spans test cs)
      (hb : Between (InRow Stmt.Spans) ":" ";" body ds) : ElseIf.Spans (.mk t.pos test body) (t :: (cs ++ ds))

end

/-- The tokens of a block. -/
abbrev blockSpans : List Stmt → List Token → Prop := Between (InRow Stmt.Spans) ":" ";"

/-! ### First tokens -/

theorem StartsAt.append {p : Pos} {cs : List Token} (h : StartsAt p cs) (ds : List Token) :
    StartsAt p (cs ++ ds) := by
  obtain ⟨t, ts, rfl, ht⟩ := h
  exact ⟨t, ts ++ ds, rfl, ht⟩

theorem StartsAt.ne_nil {p : Pos} {cs : List Token} (h : StartsAt p cs) : cs ≠ [] := by
  obtain ⟨t, ts, rfl, -⟩ := h
  simp

theorem startsAt_cons (t : Token) (ts : List Token) : StartsAt t.pos (t :: ts) := ⟨t, ts, rfl, rfl⟩

theorem startsAt_of_head? {t : Token} {cs : List Token} (h : cs.head? = some t) : StartsAt t.pos cs := by
  obtain ⟨ds, rfl⟩ := List.head?_eq_some_iff.1 h
  exact startsAt_cons t ds

theorem TypeExpr.Spans.ne_nil {type : TypeExpr} {cs : List Token} (h : type.Spans cs) : cs ≠ [] := by
  cases h <;> simp

theorem Param.Spans.ne_nil {p : Param} {cs : List Token} (h : p.Spans cs) : cs ≠ [] := by
  cases h
  simp

/-- An expression stands where its first token does. -/
theorem Expr.Spans.startsAt {e : Expr} {cs : List Token} (h : e.Spans cs) : StartsAt e.pos cs := by
  cases h with
  | binary hp | call hp | member hp => exact hp.append _
  | _ => exact startsAt_cons _ _

theorem Stmt.Spans.ne_nil {s : Stmt} {cs : List Token} (h : s.Spans cs) : cs ≠ [] := by
  cases h with
  | assign hp | addAssign hp | bump hp => exact (hp.append _).ne_nil
  | call h => exact h.startsAt.ne_nil
  | _ => simp

end Snack.Tree
