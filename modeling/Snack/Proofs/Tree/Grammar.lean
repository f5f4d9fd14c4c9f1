import Mathlib.Computability.Language
import Mathlib.Order.CompletePartialOrder
import Snack.Proofs.Token.Lexeme
import Snack.Proofs.Tree.Formed

/-! The grammar that source texts follow, told by their trees: which tokens a tree is made of, in order, and
how its operations nest. A tree has one list of tokens but for the comma that may stand behind the last
entry of a dictionary. An operand is of a level at least as tight as its place asks for; what is looser
stands in parentheses, which are nodes of the tree. -/

namespace Snack.Tree

open Token (Kind)

/-! ### Levels -/

/-- The levels of expressions, from the loosest to the tightest. -/
inductive Level where
  | coalesce | or | and | comparison | sum | product | unary | power | suffix | primary
  deriving DecidableEq

def Level.rank : Level → Nat
  | coalesce => 0
  | or => 1
  | and => 2
  | comparison => 3
  | sum => 4
  | product => 5
  | unary => 6
  | power => 7
  | suffix => 8
  | primary => 9

instance : LE Level := ⟨fun a b => a.rank ≤ b.rank⟩

instance (a b : Level) : Decidable (a ≤ b) := inferInstanceAs (Decidable (a.rank ≤ b.rank))

theorem Level.le_refl (a : Level) : a ≤ a := Nat.le_refl _

theorem Level.le_trans {a b c : Level} (h : a ≤ b) (h' : b ≤ c) : a ≤ c := Nat.le_trans h h'

theorem Level.rank_inj {a b : Level} (h : a.rank = b.rank) : a = b := by
  cases a <;> cases b <;> first | rfl | cases h

/-- The level of an operation. -/
def opLevel : BinaryOp → Level
  | .coalesce => .coalesce
  | .or => .or
  | .and => .and
  | .lt | .le | .eq | .ne | .ge | .gt => .comparison
  | .add | .sub => .sum
  | .mul | .div | .rem => .product
  | .pow => .power
  | .other _ => .primary

/-- The loosest level of the left operand: that of the operation itself where operations join from the
left. -/
def leftLevel : BinaryOp → Level
  | .coalesce | .or => .or
  | .and => .and
  | .lt | .le | .eq | .ne | .ge | .gt | .add | .sub => .sum
  | .mul | .div | .rem => .product
  | .pow => .suffix
  | .other _ => .primary

/-- The loosest level of the right operand. -/
def rightLevel : BinaryOp → Level
  | .coalesce => .coalesce
  | .or => .and
  | .and => .comparison
  | .lt | .le | .eq | .ne | .ge | .gt => .sum
  | .add | .sub => .product
  | .mul | .div | .rem | .pow => .unary
  | .other _ => .primary

/-- The tightest level that an expression is of. -/
def Expr.level : Expr → Level
  | .binary _ op _ _ => opLevel op
  | .unary .. => .unary
  | .call .. | .member .. => .suffix
  | _ => .primary

/-! ### Nesting -/

/-- A written type that starts with an emoji. -/
def TypeExpr.OpensWithPrim : TypeExpr → Prop
  | .named .. => True
  | .optional _ base => base.OpensWithPrim
  | _ => False

/-- A written type whose names are words of their kinds. -/
inductive TypeExpr.Graded : TypeExpr → Prop where
  | named {p name} (h : Kind.ofText name = .type) : Graded (.named p name)
  | array {p base} (h : Graded base) : Graded (.array p base)
  | dict {p key value} (hk : Graded key) (hv : Graded value) : Graded (.dict p key value)
  | optional {p base} (h : Graded base) : Graded (.optional p base)
  | ref {p name} (h : Kind.ofText name = .ident) : Graded (.ref p name)

/-- An expression in which every operand is of the level that its place asks for. -/
inductive Expr.Graded : Expr → Prop where
  | num {p text} (h : Kind.ofText text = .number) : Graded (.num p text)
  | str {p value} : Graded (.str p value)
  | bool {p value} : Graded (.bool p value)
  | var {p name} (h : Kind.ofText name = .ident) : Graded (.var p name)
  | paren {p e} (h : Graded e) : Graded (.paren p e)
  | binary {p op l r} (hop : ∀ text, op ≠ .other text) (hl : leftLevel op ≤ l.level)
      (hr : rightLevel op ≤ r.level) (gl : Graded l) (gr : Graded r) : Graded (.binary p op l r)
  | unary {p op e} (hop : op ∈ [.neg, .not]) (he : Level.unary ≤ e.level) (ge : Graded e) :
      Graded (.unary p op e)
  | call {p f args} (hf : Level.suffix ≤ f.level) (gf : Graded f) (ga : ∀ a ∈ args, Graded a) :
      Graded (.call p f (some args))
  | member {p o op name} (hop : op ∈ [.direct, .ifPresent]) (hn : Kind.ofText name = .ident)
      (ho : Level.suffix ≤ o.level) (go : Graded o) : Graded (.member p o (some op) (some name))
  | array {p es} (h : ∀ e ∈ es, Graded e) : Graded (.array p es)
  | tuple {p es} (hlen : 2 ≤ es.length) (h : ∀ e ∈ es, Graded e) : Graded (.tuple p es)
  | dict {p es} (hk : ∀ e ∈ es, Graded e.key) (hv : ∀ e ∈ es, Graded e.value) : Graded (.dict p es)
  | emptyArray {p t} (ht : t.OpensWithPrim) (gt : t.Graded) : Graded (.emptyArray p t)
  | emptyOptional {p t} (gt : t.Graded) : Graded (.emptyOptional p t)

/-- An expression that can stand where one of the level is asked for. -/
structure Expr.Fits (lv : Level) (e : Expr) : Prop where
  graded : e.Graded
  level : lv ≤ e.level

theorem Expr.Fits.mono {lv lv' : Level} {e : Expr} (he : e.Fits lv') (h : lv ≤ lv') : e.Fits lv :=
  ⟨he.graded, Level.le_trans h he.level⟩

/-- An operation with two operands, one with a sign in front, or what is tighter than both. -/
theorem Expr.Graded.level_cases {e : Expr} (h : e.Graded) :
    (∃ p op l r, e = .binary p op l r ∧ (∀ text, op ≠ .other text) ∧ l.Fits (leftLevel op) ∧
      r.Fits (rightLevel op)) ∨
    (∃ p op a, e = .unary p op a ∧ op ∈ [.neg, .not] ∧ a.Fits .unary) ∨ Level.suffix ≤ e.level := by
  cases h with
  | @binary p op l r hop hl hr gl gr => exact .inl ⟨p, op, l, r, rfl, hop, ⟨gl, hl⟩, ⟨gr, hr⟩⟩
  | @unary p op a hop ha ga => exact .inr (.inl ⟨p, op, a, rfl, hop, ⟨ga, ha⟩⟩)
  | call | member => exact .inr (.inr (Level.le_refl _))
  | _ => exact .inr (.inr (by decide : Level.suffix ≤ .primary))

theorem Expr.Graded.binary_of_loose {e : Expr} (h : e.Graded) (hlv : ¬Level.unary ≤ e.level) :
    ∃ p op l r, e = .binary p op l r ∧ (∀ text, op ≠ .other text) ∧ l.Fits (leftLevel op) ∧
      r.Fits (rightLevel op) := by
  rcases h.level_cases with h | ⟨p, op, a, rfl, -⟩ | h
  · exact h
  · exact absurd (Level.le_refl _) hlv
  · exact absurd (Level.le_trans (by decide) h) hlv

structure Param.Graded (q : Param) : Prop where
  type : ∀ t ∈ q.type, t.Graded

/-- A statement whose expressions are graded, at every depth. -/
inductive Stmt.Graded : Stmt → Prop where
  | varDecl {p t name init} (gt : ∀ u ∈ t, u.Graded) (gi : ∀ e ∈ init, e.Graded) :
      Graded (.varDecl p t name init)
  | collection {p name e} (ge : e.Graded) : Graded (.collection p name e)
  | function {p name ps returns body} (gp : ∀ qs ∈ ps, ∀ q ∈ qs, q.Graded)
      (gr : ∀ t ∈ returns, t.Graded) (gb : ∀ s ∈ body, Graded s) :
      Graded (.function p name ps returns body)
  | classDecl {p name body} (gb : ∀ s ∈ body, Graded s) : Graded (.classDecl p name body)
  | ifChain {p t body cs rest} (gt : t.Graded) (gb : ∀ s ∈ body, Graded s)
      (gct : ∀ c ∈ cs, c.test.Graded) (gcb : ∀ c ∈ cs, ∀ s ∈ c.body, Graded s)
      (gr : ∀ b ∈ rest, ∀ s ∈ b, Graded s) : Graded (.ifChain p t body cs rest)
  | whileLoop {p t body} (gt : t.Graded) (gb : ∀ s ∈ body, Graded s) : Graded (.whileLoop p t body)
  | rangeLoop {p name low op high body} (gl : low.Graded) (gh : high.Graded)
      (gb : ∀ s ∈ body, Graded s) : Graded (.rangeLoop p name low op high body)
  | eachLoop {p names e body} (ge : e.Graded) (gb : ∀ s ∈ body, Graded s) :
      Graded (.eachLoop p names e body)
  | print {p es} (ge : ∀ e ∈ es, e.Graded) : Graded (.print p es)
  | ret {p value} (gv : ∀ e ∈ value, e.Graded) : Graded (.ret p value)
  | brk {p} : Graded (.brk p)
  | assign {p t e} (gt : t.Graded) (ge : e.Graded) : Graded (.assign p t e)
  | addAssign {p t e} (gt : t.Graded) (ge : e.Graded) : Graded (.addAssign p t e)
  | bump {p t op} (gt : t.Graded) : Graded (.bump p t op)
  | call {p f args} (g : (Expr.call p f args).Graded) : Graded (.call p f args)

/-! ### Words -/

/-- The token that is spelled `s`. -/
def word (s : String) : Language Lexeme := {[.ofText s]}

def ident (name : String) : Language Lexeme := {[⟨.ident, name⟩]}

/-- Items with commas between them. -/
def listed : List (Language Lexeme) → Language Lexeme
  | [] => 1
  | L :: Ls => L * (Ls.map (word "," * ·)).prod

/-- Items with commas between them; one more comma may stand behind the last item. -/
def listedWithComma : List (Language Lexeme) → Language Lexeme
  | [] => 1
  | L :: Ls => listed (L :: Ls) * (1 + word ",")

/-- What may be left out. -/
def perhaps {α : Type} (f : α → Language Lexeme) (o : Option α) : Language Lexeme := o.elim 1 f

/-- What stands in a block. -/
def inBlock (L : Language Lexeme) : Language Lexeme := word ":" * L * word ";"

/-! ### Laws of words -/

theorem nil_mem_mul {L M : Language Lexeme} : [] ∈ L * M ↔ [] ∈ L ∧ [] ∈ M := by
  rw [Language.mem_mul]
  constructor
  · rintro ⟨xs, hxs, ys, hys, h⟩
    obtain ⟨rfl, rfl⟩ := List.append_eq_nil_iff.1 h
    exact ⟨hxs, hys⟩
  · rintro ⟨hL, hM⟩
    exact ⟨[], hL, [], hM, rfl⟩

theorem nil_notMem_single (x : Lexeme) : [] ∉ ({[x]} : Language Lexeme) := fun h => nomatch h

theorem nil_notMem_word (s : String) : [] ∉ word s := nil_notMem_single _

theorem nil_notMem_ident (name : String) : [] ∉ ident name := nil_notMem_single _

theorem eq_of_word_mul {s : String} {L : Language Lexeme} {x : Lexeme} {xs : List Lexeme}
    (h : x :: xs ∈ word s * L) : x = .ofText s := by
  obtain ⟨ys, hys, zs, -, h⟩ := Language.mem_mul.1 h
  obtain rfl : ys = [.ofText s] := hys
  exact (List.cons.inj h).1.symm

/-- Whether or not a comma stands behind the last item. -/
theorem listed_le_listedWithComma (Ls : List (Language Lexeme)) : listed Ls ≤ listedWithComma Ls := by
  cases Ls with
  | nil => exact le_rfl
  | cons L Ls =>
    rw [listedWithComma, mul_add, mul_one, add_eq_sup]
    exact le_sup_left

theorem listedWithComma_singleton (L : Language Lexeme) :
    listedWithComma [L] = L + L * word "," := by
  rw [listedWithComma, listed, List.map_nil, List.prod_nil, mul_one, mul_add, mul_one]

theorem listedWithComma_cons_cons (L M : Language Lexeme) (Ls : List (Language Lexeme)) :
    listedWithComma (L :: M :: Ls) = L * word "," * listedWithComma (M :: Ls) := by
  simp only [listedWithComma, listed, List.map_cons, List.prod_cons, mul_assoc]

theorem listedWithComma_cons (L : Language Lexeme) (Ls : List (Language Lexeme)) :
    L * word "," * listedWithComma Ls ≤ listedWithComma (L :: Ls) := by
  cases Ls with
  | nil =>
    rw [listedWithComma_singleton, listedWithComma, mul_one, add_eq_sup]
    exact le_sup_right
  | cons M Ls => exact (listedWithComma_cons_cons L M Ls).ge

theorem of_mem_listedWithComma_cons {L : Language Lexeme} {Ls : List (Language Lexeme)} {xs : List Lexeme}
    (h : xs ∈ listedWithComma (L :: Ls)) :
    Ls = [] ∧ xs ∈ L ∨ xs ∈ L * (word "," * listedWithComma Ls) := by
  cases Ls with
  | nil =>
    rw [listedWithComma_singleton] at h
    rw [listedWithComma, mul_one]
    exact h.imp_left fun h => ⟨rfl, h⟩
  | cons M Ls =>
    rw [listedWithComma_cons_cons, mul_assoc] at h
    exact .inr h

/-! ### The tokens of a tree -/

def TypeExpr.yields : TypeExpr → Language Lexeme
  | .named _ name => {[⟨.type, name⟩]}
  | .array _ base => word "[" * base.yields * word "]"
  | .dict _ key value => word "\x7b" * key.yields * word ":" * value.yields * word "\x7d"
  | .optional _ base => base.yields * word "?"
  | .ref _ name => ident name
  | .unknown .. | .absent _ => 0

theorem TypeExpr.nil_notMem_yields (t : TypeExpr) : [] ∉ t.yields := by
  cases t <;> simp [yields, nil_mem_mul, nil_notMem_single, nil_notMem_word, nil_notMem_ident]

mutual

/-- The token lists of an expression. One with a part missing has none. -/
def Expr.yields : Expr → Language Lexeme
  | .num _ text => {[⟨.number, text⟩]}
  | .str _ value => {[⟨.string, value⟩]}
  | .bool _ value => word (if value then Keyword.true.text else Keyword.false.text)
  | .var _ name => ident name
  | .paren _ e => word "(" * e.yields * word ")"
  | .binary _ op l r => l.yields * word op.text * r.yields
  | .unary _ op e => word op.text * e.yields
  | .call _ f (some args) => f.yields * word "(" * listed (yieldsOf args) * word ")"
  | .member _ o (some op) (some name) => o.yields * word op.text * ident name
  | .array _ es => word "[" * listed (yieldsOf es) * word "]"
  | .tuple _ es => word "(" * listed (yieldsOf es) * word ")"
  | .dict _ es => word "\x7b" * listedWithComma (yieldsOfEntries es) * word "\x7d"
  | .emptyArray _ t => word "[" * t.yields * word "]"
  | .emptyOptional _ t => word Keyword.none.text * t.yields
  | _ => 0

def yieldsOf : List Expr → List (Language Lexeme)
  | [] => []
  | e :: es => e.yields :: yieldsOf es

def yieldsOfEntries : List Entry → List (Language Lexeme)
  | [] => []
  | .mk _ key value :: es => key.yields * word ":" * value.yields :: yieldsOfEntries es

end

theorem Expr.nil_notMem_yields (e : Expr) : [] ∉ e.yields := by
  unfold yields
  split <;> simp [nil_mem_mul, nil_notMem_single, nil_notMem_word, nil_notMem_ident]

theorem yieldsOf_eq_map (es : List Expr) : yieldsOf es = es.map Expr.yields := by
  induction es with
  | nil => rfl
  | cons e es ih => rw [yieldsOf, ih, List.map_cons]

def Param.yields (q : Param) : Language Lexeme :=
  match q.name with
  | some name => perhaps TypeExpr.yields q.type * ident name
  | none => 0

def paramsYields (ps : List Param) : Language Lexeme :=
  word "(" * listed (ps.map Param.yields) * word ")"

mutual

/-- The token lists of a statement. A break may also be written as a string literal. -/
def Stmt.yields : Stmt → Language Lexeme
  | .varDecl _ t name init =>
    word Keyword.var.text * perhaps TypeExpr.yields t * ident name *
      perhaps (fun e => word "=" * e.yields) init
  | .collection _ name e => word Keyword.collection.text * ident name * word "=" * e.yields
  | .function _ name ps returns body =>
    word Keyword.function.text * ident name * perhaps paramsYields ps *
      perhaps (fun t => word "->" * t.yields) returns * inBlock (yieldsOfBlock body)
  | .classDecl _ name body => word Keyword.classDecl.text * ident name * inBlock (yieldsOfBlock body)
  | .ifChain _ t body cs none =>
    word Keyword.ifBranch.text * t.yields * inBlock (yieldsOfBlock body) * yieldsOfClauses cs
  | .ifChain _ t body cs (some rest) =>
    word Keyword.ifBranch.text * t.yields * inBlock (yieldsOfBlock body) * yieldsOfClauses cs *
      (word Keyword.elseBranch.text * inBlock (yieldsOfBlock rest))
  | .whileLoop _ t body => word Keyword.whileLoop.text * t.yields * inBlock (yieldsOfBlock body)
  | .rangeLoop _ (some name) low (some op) high body =>
    word Keyword.forLoop.text * ident name * word Keyword.inside.text * low.yields * word op.text *
      high.yields * inBlock (yieldsOfBlock body)
  | .eachLoop _ (some names) e body =>
    word Keyword.forLoop.text * listed (names.map ident) * word Keyword.inside.text * e.yields *
      inBlock (yieldsOfBlock body)
  | .print _ es => word Keyword.print.text * listed (yieldsOf es)
  | .ret _ value => word Keyword.ret.text * perhaps Expr.yields value
  | .brk _ => {[⟨.keyword, Keyword.brk.text⟩], [⟨.string, Keyword.brk.text⟩]}
  | .assign _ t e => t.yields * word "=" * e.yields
  | .addAssign _ t e => t.yields * word "+=" * e.yields
  | .bump _ t (some op) => t.yields * word op.text
  | .call p f args => (Expr.call p f args).yields
  | _ => 0

/-- The token lists of statements in a row. -/
def yieldsOfBlock : List Stmt → Language Lexeme
  | [] => 1
  | s :: ss => s.yields * yieldsOfBlock ss

def yieldsOfClauses : List ElseIf → Language Lexeme
  | [] => 1
  | .mk _ t body :: cs =>
    word Keyword.elseIf.text * t.yields * inBlock (yieldsOfBlock body) * yieldsOfClauses cs

end

end Snack.Tree
