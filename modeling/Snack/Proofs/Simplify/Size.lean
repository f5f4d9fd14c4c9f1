import Snack.Proofs.Simplify.Normal

/-! The number of nodes of a program. Simplifying never makes it larger: what an operation gives way to has
fewer nodes than the operation, and what takes the place of a statement fewer than the statement. So the
number stays the same only where nothing is changed at all. -/

namespace Snack.Core

/-! ### Counting nodes

A use of an entity is an expression and counts one. An entity that is declared, or the class of a new object,
counts `w`, so that it can be counted as a node of its own or left out. -/

mutual

/-- The number of nodes of an expression. -/
def Expr.size (w : Nat) : Expr → Nat
  | .binary _ left right _ => left.size w + right.size w + 1
  | .unary _ operand _ => operand.size w + 1
  | .call callee args _ => callee.size w + sizeOfAll w args + 1
  | .construct _ args => w + sizeOfAll w args + 1
  | .member object _ _ _ => object.size w + 1
  | .array es _ | .tuple es _ => sizeOfAll w es + 1
  | .dict es _ => sizeOfEntries w es + 1
  | .int _ | .float _ | .str _ | .bool _ | .ref _ | .emptyArray _ | .emptyOptional _ | .other _ _ => 1

def sizeOfAll (w : Nat) : List Expr → Nat
  | [] => 0
  | e :: es => e.size w + sizeOfAll w es

def sizeOfEntries (w : Nat) : List (Expr × Expr) → Nat
  | [] => 0
  | (k, v) :: es => k.size w + v.size w + sizeOfEntries w es

end

mutual

/-- The number of nodes of a statement: its own, those of its expressions and of the statements in it. -/
def Stmt.size (w : Nat) : Stmt → Nat
  | .declare _ init _ => w + sizeOfAll w init.toList + 1
  | .function f _ => f.size w + 1
  | .classDecl _ _ methods _ => w + sizeOfFunctions w methods + 1
  | .assign target source _ | .addAssign target source _ => target.size w + source.size w + 1
  | .increment target _ | .decrement target _ => target.size w + 1
  | .ifElse test body rest _ => test.size w + sizeOfBlock w body + rest.size w + 1
  | .whileLoop test body _ => test.size w + sizeOfBlock w body + 1
  | .rangeLoop _ low _ high body _ => w + (low.size w + high.size w + sizeOfBlock w body) + 1
  | .eachLoop is collection body _ => w * is.length + (collection.size w + sizeOfBlock w body) + 1
  | .ret value _ => sizeOfAll w value.toList + 1
  | .print es _ => sizeOfAll w es + 1
  | .call e _ => e.size w + 1
  | .brk _ | .other _ _ => 1

def sizeOfBlock (w : Nat) : List Stmt → Nat
  | [] => 0
  | s :: ss => s.size w + sizeOfBlock w ss

/-- A test in an else part is a statement of its own. -/
def Else.size (w : Nat) : Else → Nat
  | .none => 0
  | .block body => sizeOfBlock w body
  | .elseIf test body rest _ => test.size w + sizeOfBlock w body + rest.size w + 1

def Function.size (w : Nat) : Function → Nat
  | .mk _ params body _ => w * (params.length + 1) + sizeOfBlock w body

def sizeOfFunctions (w : Nat) : List Function → Nat
  | [] => 0
  | f :: fs => f.size w + sizeOfFunctions w fs

end

/-- The number of nodes of a program. -/
def Program.size (w : Nat) (p : Program) : Nat := sizeOfBlock w p.statements

variable (w : Nat)

theorem Expr.size_pos (e : Expr) : 0 < e.size w := by
  cases e <;> simp [Expr.size]

theorem Stmt.size_pos (s : Stmt) : 0 < s.size w := by
  cases s <;> simp [Stmt.size]

theorem sizeOfBlock_one (s : Stmt) : sizeOfBlock w [s] = s.size w := rfl

theorem sizeOfBlock_append (ss ts : List Stmt) :
    sizeOfBlock w (ss ++ ts) = sizeOfBlock w ss + sizeOfBlock w ts := by
  induction ss with
  | nil => simp [sizeOfBlock]
  | cons s ss ih => rw [List.cons_append, sizeOfBlock, sizeOfBlock, ih, Nat.add_assoc]

end Snack.Core

namespace Snack.Simplify

open Snack.Core

/-! ### Numbers that go down -/

/-- A number goes down from `m` to `n`, or it stays and `same` holds. -/
def Shrinks (same : Prop) (m n : Nat) : Prop := n < m ∨ n = m ∧ same

namespace Shrinks

variable {p q : Prop} {k m n m' n' : Nat}

theorem stay (h : p) : Shrinks p n n := .inr ⟨rfl, h⟩

theorem imp (h : Shrinks p m n) (hpq : p → q) : Shrinks q m n := h.imp_right (And.imp_right hpq)

theorem le (h : Shrinks p m n) : n ≤ m := by
  rcases h with h | ⟨h, -⟩ <;> omega

theorem lt_of_not (h : Shrinks p m n) (hp : ¬p) : n < m := h.resolve_right fun hs => hp hs.2

theorem of_eq (h : Shrinks p m n) (he : n = m) : p := by
  rcases h with h | ⟨-, h⟩
  · omega
  · exact h

theorem add (h : Shrinks p m n) (h' : Shrinks q m' n') : Shrinks (p ∧ q) (m + m') (n + n') := by
  rcases h with h | ⟨rfl, hp⟩
  · exact .inl (Nat.add_lt_add_of_lt_of_le h h'.le)
  · rcases h' with h' | ⟨rfl, hq⟩
    · exact .inl (Nat.add_lt_add_left h' _)
    · exact .stay ⟨hp, hq⟩

theorem add_left (h : Shrinks p m n) (k : Nat) : Shrinks p (k + m) (k + n) :=
  ((Shrinks.stay trivial).add h).imp And.right

theorem succ (h : Shrinks p m n) : Shrinks p (m + 1) (n + 1) :=
  (h.add (.stay trivial)).imp And.left

end Shrinks

/-! ### Expressions -/

section Expressions

variable (w : Nat)

theorem size_ofValue (v : Number.Value) : (ofValue v).size w = 1 := by
  rcases v with (_ | _) | _ <;> rfl

/-- What an operation gives way to is smaller than the operation. -/
theorem Reduct.size_lt {l r e : Expr} (h : Reduct l r e) : e.size w < l.size w + r.size w + 1 := by
  have hl := l.size_pos w
  cases h with
  | left => omega
  | right => omega
  | negated => rw [Expr.size]; omega
  | literal v => rw [size_ofValue]; omega

theorem shrinks_binary {l l' r r' : Expr} (op : BinaryOp) (t : Ty)
    (hl : Shrinks (l' = l) (l.size w) (l'.size w)) (hr : Shrinks (r' = r) (r.size w) (r'.size w)) :
    Shrinks (binary op l' r' t = .binary op l r t) ((Expr.binary op l r t).size w)
      ((binary op l' r' t).size w) := by
  rcases binary_cases op l' r' t with h | h
  · -- nothing was done here, so all depends on the operands
    rw [h]
    exact (hl.add hr).succ.imp (by rintro ⟨rfl, rfl⟩; rfl)
  · have hsmaller := h.size_lt w
    have := hl.le
    have := hr.le
    rw [Expr.size]
    exact .inl (by omega)

theorem shrinks_unary {e e' : Expr} (op : UnaryOp) (t : Ty)
    (he : Shrinks (e' = e) (e.size w) (e'.size w)) :
    Shrinks (unary op e' t = .unary op e t) ((Expr.unary op e t).size w) ((unary op e' t).size w) := by
  rcases unary_cases op e' t with h | ⟨x, h⟩
  · rw [h]
    exact he.succ.imp (by rintro rfl; rfl)
  · have hpos := e.size_pos w
    rw [h, show ofNumber x = ofValue (.number x) from rfl, size_ofValue, Expr.size]
    exact .inl (by omega)

mutual

/-- An expression is smaller when it is simplified, or stays as it is. -/
theorem shrinks_expr (e : Expr) : Shrinks (expr e = e) (e.size w) ((expr e).size w) := by
  cases e with
  | binary op l r t => exact shrinks_binary w op t (shrinks_expr l) (shrinks_expr r)
  | unary op e t => exact shrinks_unary w op t (shrinks_expr e)
  | call f args t =>
    exact ((shrinks_expr f).add (shrinks_exprs args)).succ.imp fun h => by rw [expr, h.1, h.2]
  | construct c args => exact ((shrinks_exprs args).add_left w).succ.imp fun h => by rw [expr, h]
  | member o op field t => exact (shrinks_expr o).succ.imp fun h => by rw [expr, h]
  | array es t => exact (shrinks_exprs es).succ.imp fun h => by rw [expr, h]
  | tuple es t => exact (shrinks_exprs es).succ.imp fun h => by rw [expr, h]
  | dict es t => exact (shrinks_entries es).succ.imp fun h => by rw [expr, h]
  | _ => exact .stay rfl

theorem shrinks_exprs (es : List Expr) : Shrinks (exprs es = es) (sizeOfAll w es) (sizeOfAll w (exprs es)) := by
  cases es with
  | nil => exact .stay rfl
  | cons e es => exact ((shrinks_expr e).add (shrinks_exprs es)).imp fun h => by rw [exprs, h.1, h.2]

theorem shrinks_entries (es : List (Expr × Expr)) :
    Shrinks (entries es = es) (sizeOfEntries w es) (sizeOfEntries w (entries es)) := by
  cases es with
  | nil => exact .stay rfl
  | cons e es =>
    obtain ⟨k, v⟩ := e
    exact (((shrinks_expr k).add (shrinks_expr v)).add (shrinks_entries es)).imp fun h => by
      rw [entries, h.1.1, h.1.2, h.2]

end

theorem shrinks_map (o : Option Expr) :
    Shrinks (o.map expr = o) (sizeOfAll w o.toList) (sizeOfAll w (o.map expr).toList) := by
  cases o with
  | none => exact .stay rfl
  | some e => exact (shrinks_exprs w [e]).imp fun h => congrArg some (List.cons.inj h).1

end Expressions

/-! ### Statements -/

section Statements

variable (w : Nat)

/-- A statement that another one takes the place of. -/
theorem shrinks_one {p : Prop} {s s' : Stmt} (h : Shrinks p (s.size w) (s'.size w)) (hp : p → s' = s) :
    Shrinks ([s'] = [s]) (s.size w) (sizeOfBlock w [s']) := by
  rw [sizeOfBlock_one]
  exact h.imp fun hs => by rw [hp hs]

/-- A statement that is left out if a condition holds. -/
theorem shrinks_unless {p : Prop} {s s' : Stmt} (c : Bool) (h : Shrinks p (s.size w) (s'.size w))
    (hp : p → s' = s) :
    Shrinks ((if c then [] else [s']) = [s]) (s.size w) (sizeOfBlock w (if c then [] else [s'])) := by
  cases c with
  | true => exact .inl (s.size_pos w)
  | false => exact shrinks_one w h hp

theorem size_spliced (e : Else) : sizeOfBlock w (spliced e) = e.size w := by
  cases e <;> rfl

theorem size_replaced (e : Else) : (replaced e).size w = e.size w := by
  cases e <;> rfl

mutual

/-- What takes the place of a statement is smaller, or the statement itself. -/
theorem shrinks_stmt (s : Stmt) : Shrinks (stmt s = [s]) (s.size w) (sizeOfBlock w (stmt s)) := by
  cases s with
  | declare v init p => exact shrinks_one w ((shrinks_map w init).add_left w).succ fun h => by rw [h]
  | function f p => exact shrinks_one w (shrinks_function f).succ fun h => by rw [h]
  | classDecl c fields methods p =>
    exact shrinks_one w ((shrinks_functions methods).add_left w).succ fun h => by rw [h]
  | assign t s p =>
    exact shrinks_unless w _ ((shrinks_expr w t).add (shrinks_expr w s)).succ fun h => by rw [h.1, h.2]
  | addAssign t s p =>
    exact shrinks_one w ((shrinks_expr w t).add (shrinks_expr w s)).succ fun h => by rw [h.1, h.2]
  | increment t p => exact shrinks_one w (shrinks_expr w t).succ fun h => by rw [h]
  | decrement t p => exact shrinks_one w (shrinks_expr w t).succ fun h => by rw [h]
  | ifElse t b e p =>
    have hb := shrinks_block b
    have he := shrinks_elsePart e
    rw [stmt]
    -- where the test is a literal, one of the parts takes the place of the statement and the test goes
    split
    · refine .inl ?_
      have := hb.le
      rw [Stmt.size]
      omega
    · refine .inl ?_
      have := he.le
      rw [size_spliced, Stmt.size]
      omega
    · exact shrinks_one w (((shrinks_expr w t).add hb).add he).succ fun h => by rw [h.1.1, h.1.2, h.2]
  | whileLoop t b p =>
    exact shrinks_unless w _ ((shrinks_expr w t).add (shrinks_block b)).succ fun h => by rw [h.1, h.2]
  | rangeLoop i low op high b p =>
    have hbounds := (shrinks_expr w low).add (shrinks_expr w high)
    exact shrinks_unless w _ ((hbounds.add (shrinks_block b)).add_left w).succ fun h => by
      rw [h.1.1, h.1.2, h.2]
  | eachLoop is c b p =>
    exact shrinks_unless w _ (((shrinks_expr w c).add (shrinks_block b)).add_left _).succ fun h => by
      rw [h.1, h.2]
  | ret value p => exact shrinks_one w (shrinks_map w value).succ fun h => by rw [h]
  | print es p => exact shrinks_one w (shrinks_exprs w es).succ fun h => by rw [h]
  | call e p => exact shrinks_one w (shrinks_expr w e).succ fun h => by rw [h]
  | brk p => exact .stay rfl
  | other tag p => exact .stay rfl

theorem shrinks_block (ss : List Stmt) :
    Shrinks (block ss = ss) (sizeOfBlock w ss) (sizeOfBlock w (block ss)) := by
  cases ss with
  | nil => exact .stay rfl
  | cons s ss =>
    rw [block, sizeOfBlock_append]
    exact ((shrinks_stmt s).add (shrinks_block ss)).imp fun h => by rw [h.1, h.2, List.singleton_append]

theorem shrinks_elsePart (e : Else) : Shrinks (elsePart e = e) (e.size w) ((elsePart e).size w) := by
  cases e with
  | none => exact .stay rfl
  | block b => exact (shrinks_block b).imp fun h => by rw [elsePart, h]
  | elseIf t b e p =>
    have hb := shrinks_block b
    have he := shrinks_elsePart e
    rw [elsePart]
    split
    · refine .inl ?_
      have := hb.le
      rw [Else.size, Else.size]
      omega
    · refine .inl ?_
      have := he.le
      rw [size_replaced, Else.size]
      omega
    · exact (((shrinks_expr w t).add hb).add he).succ.imp fun h => by rw [h.1.1, h.1.2, h.2]

theorem shrinks_function (f : Function) : Shrinks (function f = f) (f.size w) ((function f).size w) := by
  cases f with
  | mk e params b p => exact ((shrinks_block b).add_left _).imp fun h => by rw [function, h]

theorem shrinks_functions (fs : List Function) :
    Shrinks (functions fs = fs) (sizeOfFunctions w fs) (sizeOfFunctions w (functions fs)) := by
  cases fs with
  | nil => exact .stay rfl
  | cons f fs => exact ((shrinks_function f).add (shrinks_functions fs)).imp fun h => by rw [functions, h.1, h.2]

end

theorem shrinks_program (p : Program) : Shrinks (program p = p) (p.size w) ((program p).size w) :=
  (shrinks_block w p.statements).imp fun h => by rw [program, h]

end Statements

/-! ### Programs -/

/-- Simplifying makes no expression, no block and no program larger, and whatever has another dump than before
is smaller than before. A program keeps its size only if there was nothing to simplify in it at any depth. -/
theorem smaller_unless_same_dump (w : Nat) :
    (∀ e : Expr, (expr e).size w ≤ e.size w ∧
      (dumpExpr (expr e) ≠ dumpExpr e → (expr e).size w < e.size w)) ∧
    (∀ ss : List Stmt, sizeOfBlock w (block ss) ≤ sizeOfBlock w ss ∧
      (dumpStmts (block ss) ≠ dumpStmts ss → sizeOfBlock w (block ss) < sizeOfBlock w ss)) ∧
    ∀ p : Program, (program p).size w ≤ p.size w ∧
      ((program p).dump ≠ p.dump → (program p).size w < p.size w) ∧
      ((program p).size w = p.size w ↔ NormalProgram p) := by
  refine ⟨fun e => ?_, fun ss => ?_, fun p => ?_⟩
  · have h := shrinks_expr w e
    exact ⟨h.le, fun hd => h.lt_of_not fun he => hd (by rw [he])⟩
  · have h := shrinks_block w ss
    exact ⟨h.le, fun hd => h.lt_of_not fun he => hd (by rw [he])⟩
  · have h := shrinks_program w p
    refine ⟨h.le, fun hd => h.lt_of_not fun he => hd (by rw [he]), fun hsize => ?_, fun hnormal => ?_⟩
    · rw [← h.of_eq hsize]
      exact normal_program p
    · rw [program_eq_self hnormal]

/-- A loop whose test comes down to false goes with all that stands in it. -/
theorem smaller_unless_same_dump_loop :
    let p : Program := ⟨[.whileLoop (.binary .lt (.int 1) (.int 0) .bool) [.brk .start] .start]⟩
    (program p).dump ≠ p.dump ∧ (program p).size 0 < p.size 0 := by
  intro p
  have hdump : (program p).dump ≠ p.dump := by
    have hp : program p = ⟨[]⟩ := rfl
    rw [hp]
    rintro ⟨⟩
  exact ⟨hdump, ((smaller_unless_same_dump 0).2.2 p).2.1 hdump⟩

end Snack.Simplify
