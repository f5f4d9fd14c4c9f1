import Snack.Core.Dump
import Snack.Proofs.Simplify.Writable

/-! Programs in which nothing is left to simplify. One pass brings every program into this form, and leaves
a program that has it as it is, so a second pass changes nothing. The pass works from the leaves up: what an
operation gives way to is one of its simplified operands, a literal, or the negation of an operand that is
no literal. -/

namespace Snack.Simplify

open Snack.Core Snack.Typing

/-! ### Normal forms -/

/-- Expressions without a minus on a literal and without an operation that comes down to something else. -/
inductive NormalExpr : Expr → Prop where
  | int (n : Int) : NormalExpr (.int n)
  | float (x : Float) : NormalExpr (.float x)
  | str (s : String) : NormalExpr (.str s)
  | bool (b : Bool) : NormalExpr (.bool b)
  | ref (e : Entity) : NormalExpr (.ref e)
  | binary {op l r t} (hl : NormalExpr l) (hr : NormalExpr r) (h : binary? op l r t = none) :
      NormalExpr (.binary op l r t)
  | unary {op e t} (he : NormalExpr e) (h : op = .neg → number? e = none) : NormalExpr (.unary op e t)
  | call {f args t} (hf : NormalExpr f) (ha : ∀ a ∈ args, NormalExpr a) : NormalExpr (.call f args t)
  | construct {c args} (ha : ∀ a ∈ args, NormalExpr a) : NormalExpr (.construct c args)
  | member {o op field t} (ho : NormalExpr o) : NormalExpr (.member o op field t)
  | array {es t} (he : ∀ e ∈ es, NormalExpr e) : NormalExpr (.array es t)
  | tuple {es t} (he : ∀ e ∈ es, NormalExpr e) : NormalExpr (.tuple es t)
  | dict {es t} (hk : ∀ e ∈ es, NormalExpr e.1) (hv : ∀ e ∈ es, NormalExpr e.2) : NormalExpr (.dict es t)
  | emptyArray (t : Ty) : NormalExpr (.emptyArray t)
  | emptyOptional (t : Ty) : NormalExpr (.emptyOptional t)
  | other (tag : String) (t : Ty) : NormalExpr (.other tag t)

/-- Nodes without a statement that does nothing, a loop that never runs or a test that is known. -/
inductive Normal : Node → Prop where
  | declare {v init p} (hi : ∀ e ∈ init, NormalExpr e) : Normal (.stmt (.declare v init p))
  | function {f p} (hf : Normal (.function f)) : Normal (.stmt (.function f p))
  | classDecl {c fields methods p} (hm : ∀ f ∈ methods, Normal (.function f)) :
      Normal (.stmt (.classDecl c fields methods p))
  | assign {t s p} (ht : NormalExpr t) (hs : NormalExpr s) (h : sameEntity s t = false) :
      Normal (.stmt (.assign t s p))
  | addAssign {t s p} (ht : NormalExpr t) (hs : NormalExpr s) : Normal (.stmt (.addAssign t s p))
  | increment {t p} (ht : NormalExpr t) : Normal (.stmt (.increment t p))
  | decrement {t p} (ht : NormalExpr t) : Normal (.stmt (.decrement t p))
  | ifElse {t b e p} (ht : NormalExpr t) (h : ∀ v, t ≠ .bool v) (hb : ∀ s ∈ b, Normal (.stmt s))
      (he : Normal (.rest e)) : Normal (.stmt (.ifElse t b e p))
  | whileLoop {t b p} (ht : NormalExpr t) (h : t ≠ .bool false) (hb : ∀ s ∈ b, Normal (.stmt s)) :
      Normal (.stmt (.whileLoop t b p))
  | rangeLoop {i low op high b p} (hl : NormalExpr low) (hh : NormalExpr high)
      (h : ∀ x y, number? low = some x → number? high = some y → y.lt x = false)
      (hb : ∀ s ∈ b, Normal (.stmt s)) : Normal (.stmt (.rangeLoop i low op high b p))
  | eachLoop {is c b p} (hc : NormalExpr c) (h : ∀ t, c ≠ .emptyArray t)
      (hb : ∀ s ∈ b, Normal (.stmt s)) : Normal (.stmt (.eachLoop is c b p))
  | ret {value p} (hv : ∀ e ∈ value, NormalExpr e) : Normal (.stmt (.ret value p))
  | brk {p} : Normal (.stmt (.brk p))
  | print {es p} (he : ∀ e ∈ es, NormalExpr e) : Normal (.stmt (.print es p))
  | call {e p} (he : NormalExpr e) : Normal (.stmt (.call e p))
  | other {tag p} : Normal (.stmt (.other tag p))
  | none : Normal (.rest .none)
  | block {b} (hb : ∀ s ∈ b, Normal (.stmt s)) : Normal (.rest (.block b))
  | elseIf {t b e p} (ht : NormalExpr t) (h : ∀ v, t ≠ .bool v) (hb : ∀ s ∈ b, Normal (.stmt s))
      (he : Normal (.rest e)) : Normal (.rest (.elseIf t b e p))
  | body {f params b p} (hb : ∀ s ∈ b, Normal (.stmt s)) : Normal (.function (.mk f params b p))

/-- A program in normal form, at every depth. -/
def NormalProgram (p : Program) : Prop := ∀ s ∈ p.statements, Normal (.stmt s)

/-! ### Conditions as tests -/

theorem isFalse_iff {e : Expr} : isFalse e = true ↔ e = .bool false := by
  unfold isFalse
  split
  · simp
  · next h => simpa using h

theorem isEmptyArray_iff {e : Expr} : isEmptyArray e = true ↔ ∃ t, e = .emptyArray t := by
  cases e <;> simp [isEmptyArray]

theorem emptyRange_eq_false {low high : Expr} :
    emptyRange low high = false ↔
      ∀ x y, number? low = some x → number? high = some y → y.lt x = false := by
  unfold emptyRange
  split
  · next x y hx hy => simp [hx, hy]
  · next h =>
    refine ⟨fun _ x y hx hy => absurd hy (h x y hx), fun _ => rfl⟩

/-! ### The pass gives normal forms -/

theorem normal_ofNumber (x : Number) : NormalExpr (ofNumber x) := by
  cases x with
  | int n => exact .int n
  | float x => exact .float x

section Expressions

variable {l r e : Expr}

/-- What an operation on normal operands gives way to is normal. -/
theorem normal_reduct (h : Reduct l r e) (hl : NormalExpr l) (hr : NormalExpr r) : NormalExpr e := by
  cases h with
  | left => exact hl
  | right => exact hr
  | negated h => exact .unary hr fun _ => h
  | literal v =>
    cases v with
    | number x => exact normal_ofNumber x
    | bool b => exact .bool b

theorem normal_binary (op : BinaryOp) (t : Ty) (hl : NormalExpr l) (hr : NormalExpr r) :
    NormalExpr (binary op l r t) := by
  unfold binary
  cases h : binary? op l r t with
  | none => exact .binary hl hr h
  | some e => exact normal_reduct (reduces_binary? h).reduct hl hr

theorem normal_unary (op : UnaryOp) (t : Ty) (he : NormalExpr e) : NormalExpr (unary op e t) := by
  unfold unary
  split
  · exact normal_ofNumber _
  · next hop =>
    refine .unary he fun hneg => ?_
    cases hn : number? e with
    | none => rfl
    | some x => exact absurd hn (hop x hneg)

mutual

theorem normal_expr (e : Expr) : NormalExpr (expr e) := by
  cases e with
  | int n => exact .int n
  | float x => exact .float x
  | str s => exact .str s
  | bool b => exact .bool b
  | ref e => exact .ref e
  | binary op l r t => exact normal_binary op t (normal_expr l) (normal_expr r)
  | unary op e t => exact normal_unary op t (normal_expr e)
  | call f args t => exact .call (normal_expr f) (normal_exprs args)
  | construct c args => exact .construct (normal_exprs args)
  | member o op field t => exact .member (normal_expr o)
  | array es t => exact .array (normal_exprs es)
  | tuple es t => exact .tuple (normal_exprs es)
  | dict es t => exact .dict (fun e he => (normal_entries es e he).1) fun e he => (normal_entries es e he).2
  | emptyArray t => exact .emptyArray t
  | emptyOptional t => exact .emptyOptional t
  | other tag t => exact .other tag t

theorem normal_exprs (es : List Expr) : ∀ e ∈ exprs es, NormalExpr e := by
  cases es with
  | nil => simp [exprs]
  | cons e es => exact List.forall_mem_cons.2 ⟨normal_expr e, normal_exprs es⟩

theorem normal_entries (es : List (Expr × Expr)) : ∀ e ∈ entries es, NormalExpr e.1 ∧ NormalExpr e.2 := by
  cases es with
  | nil => simp [entries]
  | cons e es =>
    exact List.forall_mem_cons.2 ⟨⟨normal_expr e.1, normal_expr e.2⟩, normal_entries es⟩

end

theorem normal_map (o : Option Expr) : ∀ e ∈ o.map expr, NormalExpr e := by
  cases o with
  | none => simp
  | some e => simpa using normal_expr e

end Expressions

theorem normal_spliced {e : Else} (h : Normal (.rest e)) : ∀ s ∈ spliced e, Normal (.stmt s) := by
  cases h with
  | none => simp [spliced]
  | block hb => exact hb
  | elseIf ht hbool hb he => simpa [spliced] using Normal.ifElse ht hbool hb he

theorem normal_replaced {e : Else} (h : Normal (.rest e)) : Normal (.rest (replaced e)) := by
  cases h with
  | none => exact .block (by simp)
  | block hb => exact .block hb
  | elseIf ht hbool hb he => exact .elseIf ht hbool hb he

/-- A statement that stays unless a condition holds. -/
theorem normal_unless {s : Stmt} {c : Bool} (h : c = false → Normal (.stmt s)) :
    ∀ s' ∈ (if c then [] else [s]), Normal (.stmt s') := by
  cases c with
  | true => simp
  | false => simpa using h rfl

mutual

/-- What takes the place of a statement is normal. -/
theorem normal_stmt (s : Stmt) : ∀ s' ∈ stmt s, Normal (.stmt s') := by
  cases s with
  | declare v init p => simpa [stmt] using Normal.declare (normal_map init)
  | function f p => simpa [stmt] using Normal.function (normal_function f)
  | classDecl c fields methods p => simpa [stmt] using Normal.classDecl (normal_functions methods)
  | assign t s p => exact normal_unless fun h => .assign (normal_expr t) (normal_expr s) h
  | addAssign t s p => simpa [stmt] using Normal.addAssign (normal_expr t) (normal_expr s)
  | increment t p => simpa [stmt] using Normal.increment (normal_expr t)
  | decrement t p => simpa [stmt] using Normal.decrement (normal_expr t)
  | ifElse t b e p =>
    rw [stmt]
    split
    · exact normal_block b
    · exact normal_spliced (normal_elsePart e)
    · next htrue hfalse =>
      have hbool : ∀ v, expr t ≠ .bool v := Bool.forall_bool.2 ⟨hfalse, htrue⟩
      simpa using Normal.ifElse (normal_expr t) hbool (normal_block b) (normal_elsePart e)
  | whileLoop t b p =>
    refine normal_unless fun h => .whileLoop (normal_expr t) (fun ht => ?_) (normal_block b)
    rw [isFalse_iff.2 ht] at h
    cases h
  | rangeLoop i low op high b p =>
    exact normal_unless fun h =>
      .rangeLoop (normal_expr low) (normal_expr high) (emptyRange_eq_false.1 h) (normal_block b)
  | eachLoop is c b p =>
    refine normal_unless fun h => .eachLoop (normal_expr c) (fun t ht => ?_) (normal_block b)
    rw [isEmptyArray_iff.2 ⟨t, ht⟩] at h
    cases h
  | ret value p => simpa [stmt] using Normal.ret (normal_map value)
  | brk p => simpa [stmt] using Normal.brk
  | print es p => simpa [stmt] using Normal.print (normal_exprs es)
  | call e p => simpa [stmt] using Normal.call (normal_expr e)
  | other tag p => simpa [stmt] using Normal.other

theorem normal_block (ss : List Stmt) : ∀ s ∈ block ss, Normal (.stmt s) := by
  cases ss with
  | nil => simp [block]
  | cons s ss => exact List.forall_mem_append.2 ⟨normal_stmt s, normal_block ss⟩

theorem normal_elsePart (e : Else) : Normal (.rest (elsePart e)) := by
  cases e with
  | none => exact .none
  | block b => exact .block (normal_block b)
  | elseIf t b e p =>
    rw [elsePart]
    split
    · exact .block (normal_block b)
    · exact normal_replaced (normal_elsePart e)
    · next htrue hfalse =>
      have hbool : ∀ v, expr t ≠ .bool v := Bool.forall_bool.2 ⟨hfalse, htrue⟩
      exact .elseIf (normal_expr t) hbool (normal_block b) (normal_elsePart e)

theorem normal_function (f : Function) : Normal (.function (function f)) := by
  cases f with
  | mk e params b p => exact .body (normal_block b)

theorem normal_functions (fs : List Function) : ∀ f ∈ functions fs, Normal (.function f) := by
  cases fs with
  | nil => simp [functions]
  | cons f fs => exact List.forall_mem_cons.2 ⟨normal_function f, normal_functions fs⟩

end

/-! ### The pass keeps normal forms -/

theorem exprs_eq_self {es : List Expr} (h : ∀ e ∈ es, expr e = e) : exprs es = es := by
  rw [exprs_eq_map]
  exact (List.map_congr_left h).trans (List.map_id es)

theorem unary_eq_self {op : UnaryOp} {e : Expr} (t : Ty) (h : op = .neg → number? e = none) :
    unary op e t = .unary op e t := by
  unfold unary
  split
  · next x hx => rw [h rfl] at hx; cases hx
  · rfl

theorem expr_eq_self {e : Expr} (h : NormalExpr e) : expr e = e := by
  induction h with
  | binary _ _ h ihl ihr => rw [expr, ihl, ihr, binary, h, Option.getD_none]
  | unary _ h ih => rw [expr, ih, unary_eq_self _ h]
  | call _ _ ihf iha => rw [expr, ihf, exprs_eq_self iha]
  | construct _ iha => rw [expr, exprs_eq_self iha]
  | member _ ih => rw [expr, ih]
  | array _ ih => rw [expr, exprs_eq_self ih]
  | tuple _ ih => rw [expr, exprs_eq_self ih]
  | @dict es t _ _ ihk ihv =>
    have hes : entries es = es := by
      rw [entries_eq_map]
      exact (List.map_congr_left fun e he => Prod.ext (ihk e he) (ihv e he)).trans (List.map_id es)
    rw [expr, hes]
  | _ => rfl

theorem map_eq_self {o : Option Expr} (h : ∀ e ∈ o, NormalExpr e) : o.map expr = o := by
  cases o with
  | none => rfl
  | some e => rw [Option.map_some, expr_eq_self (h e rfl)]

theorem block_eq_self {ss : List Stmt} (h : ∀ s ∈ ss, stmt s = [s]) : block ss = ss := by
  induction ss with
  | nil => rfl
  | cons s ss ih =>
    obtain ⟨hs, hss⟩ := List.forall_mem_cons.1 h
    rw [block, hs, ih hss, List.singleton_append]

/-- The pass gives the node itself. -/
def Unchanged : Node → Prop
  | .stmt s => stmt s = [s]
  | .rest e => elsePart e = e
  | .function f => function f = f

theorem unchanged_of_normal {n : Node} (h : Normal n) : Unchanged n := by
  induction h with
  | declare hi => rw [Unchanged, stmt, map_eq_self hi]
  | function _ ih => rw [Unchanged, stmt, show function _ = _ from ih]
  | @classDecl c fields methods p _ ih =>
    have hms : functions methods = methods := by
      rw [functions_eq_map]
      exact (List.map_congr_left ih).trans (List.map_id methods)
    rw [Unchanged, stmt, hms]
  | assign ht hs h => rw [Unchanged, stmt, expr_eq_self ht, expr_eq_self hs, h]; rfl
  | addAssign ht hs => rw [Unchanged, stmt, expr_eq_self ht, expr_eq_self hs]
  | increment ht => rw [Unchanged, stmt, expr_eq_self ht]
  | decrement ht => rw [Unchanged, stmt, expr_eq_self ht]
  | ifElse ht h _ _ ihb ihe =>
    rw [Unchanged, stmt, expr_eq_self ht, block_eq_self ihb, show elsePart _ = _ from ihe]
    split
    · exact absurd rfl (h true)
    · exact absurd rfl (h false)
    · rfl
  | @whileLoop t b p ht h _ ihb =>
    have hfalse : isFalse t = false := Bool.eq_false_iff.2 fun ht => h (isFalse_iff.1 ht)
    rw [Unchanged, stmt, expr_eq_self ht, block_eq_self ihb, hfalse]
    rfl
  | rangeLoop hl hh h _ ihb =>
    rw [Unchanged, stmt, expr_eq_self hl, expr_eq_self hh, block_eq_self ihb, emptyRange_eq_false.2 h]
    rfl
  | @eachLoop is c b p hc h _ ihb =>
    have harray : isEmptyArray c = false :=
      Bool.eq_false_iff.2 fun hc => (isEmptyArray_iff.1 hc).elim h
    rw [Unchanged, stmt, expr_eq_self hc, block_eq_self ihb, harray]
    rfl
  | ret hv => rw [Unchanged, stmt, map_eq_self hv]
  | brk | other => rfl
  | print he => rw [Unchanged, stmt, exprs_eq_self fun e hmem => expr_eq_self (he e hmem)]
  | call he => rw [Unchanged, stmt, expr_eq_self he]
  | none => rfl
  | block _ ih => rw [Unchanged, elsePart, block_eq_self ih]
  | elseIf ht h _ _ ihb ihe =>
    rw [Unchanged, elsePart, expr_eq_self ht, block_eq_self ihb, show elsePart _ = _ from ihe]
    split
    · exact absurd rfl (h true)
    · exact absurd rfl (h false)
    · rfl
  | body _ ih => rw [Unchanged, function, block_eq_self ih]

/-! ### Programs -/

theorem normal_program (p : Program) : NormalProgram (program p) := normal_block p.statements

theorem program_eq_self {p : Program} (h : NormalProgram p) : program p = p := by
  have hp : block p.statements = p.statements :=
    block_eq_self fun s hs => unchanged_of_normal (h s hs)
  rw [program, hp]

/-- One pass leaves nothing to simplify at any depth, and another one changes neither the program nor its
dump. -/
theorem program_normal_and_stable (p : Program) :
    NormalProgram (program p) ∧ program (program p) = program p ∧
      (program (program p)).dump = (program p).dump := by
  have h := program_eq_self (normal_program p)
  exact ⟨normal_program p, h, congrArg Program.dump h⟩

end Snack.Simplify
