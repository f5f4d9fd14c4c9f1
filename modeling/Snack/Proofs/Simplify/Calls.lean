import Snack.Parser.Stmt
import Snack.Proofs.Core.Parts
import Snack.Proofs.Number.Integers
import Snack.Proofs.Simplify.Reducts
import Snack.Typing.Stmt

/-! The calls that simplifying an expression keeps. Nothing is reordered and no call is added, but a constant
may decide an operation whatever its other operand is, and then the calls in that operand are lost with it.
Proved: this happens in `0 * x`, `0 / x`, `1 ** x`, `x * 0` and `x ** 0` and nowhere else, so the calls of an
expression all stay exactly if no such operation has a call in it. -/

namespace Snack.Simplify

open Snack.Core Snack.Typing

/-- What is called, in its simplified form. The name of a function or a class stays as it is. -/
def simplifiedCallee : Callee → Callee
  | .constructor cls => .constructor cls
  | .function f result => .function (expr f) result

/-- Whether the left operand decides an operation: `0 * x`, `0 / x` and `1 ** x`. -/
def leftDecides (op : BinaryOp) (left : Expr) : Bool :=
  match op, number? left with
  | .mul, some x | .div, some x => x.isZero
  | .pow, some x => x.isOne
  | _, _ => false

/-- Whether the right operand decides an operation: `x * 0` and `x ** 0`. -/
def rightDecides (op : BinaryOp) (right : Expr) : Bool :=
  match op, number? right with
  | .mul, some y | .pow, some y => y.isZero
  | _, _ => false

def decided (op : BinaryOp) (left right : Expr) : Bool := leftDecides op left || rightDecides op right

mutual

/-- The calls of an expression without those in operations that a constant decides. -/
def keptCalls : Expr → List Callee
  | .binary op left right _ =>
    if decided op (expr left) (expr right) then [] else keptCalls left ++ keptCalls right
  | .unary _ operand _ => keptCalls operand
  | .call callee args t => .function callee t :: (keptCalls callee ++ keptCallsOfAll args)
  | .construct c args => .constructor c :: keptCallsOfAll args
  | .member object _ _ _ => keptCalls object
  | .array es _ | .tuple es _ => keptCallsOfAll es
  | .dict es _ => keptCallsOfEntries es
  | .int _ | .float _ | .str _ | .bool _ | .ref _ | .emptyArray _ | .emptyOptional _ | .other _ _ => []

def keptCallsOfAll : List Expr → List Callee
  | [] => []
  | e :: es => keptCalls e ++ keptCallsOfAll es

def keptCallsOfEntries : List (Expr × Expr) → List Callee
  | [] => []
  | (k, v) :: es => keptCalls k ++ keptCalls v ++ keptCallsOfEntries es

end

mutual

/-- No operation that a constant decides has a call in it. -/
def Lossless : Expr → Prop
  | .binary op left right _ =>
    (decided op (expr left) (expr right) = true → left.calls ++ right.calls = []) ∧
      Lossless left ∧ Lossless right
  | .unary _ operand _ => Lossless operand
  | .call callee args _ => Lossless callee ∧ LosslessAll args
  | .construct _ args => LosslessAll args
  | .member object _ _ _ => Lossless object
  | .array es _ | .tuple es _ => LosslessAll es
  | .dict es _ => LosslessEntries es
  | .int _ | .float _ | .str _ | .bool _ | .ref _ | .emptyArray _ | .emptyOptional _ | .other _ _ => True

def LosslessAll : List Expr → Prop
  | [] => True
  | e :: es => Lossless e ∧ LosslessAll es

def LosslessEntries : List (Expr × Expr) → Prop
  | [] => True
  | (k, v) :: es => (Lossless k ∧ Lossless v) ∧ LosslessEntries es

end

/-! ### Single operations -/

section Operations

variable {op : BinaryOp} {l r e : Expr} {t : Ty}

theorem calls_ofNumber (x : Number) : (ofNumber x).calls = [] := by
  cases x <;> rfl

theorem calls_ofValue (v : Number.Value) : (ofValue v).calls = [] := by
  cases v with
  | number x => exact calls_ofNumber x
  | bool b => rfl

theorem calls_of_number? {x : Number} (h : number? e = some x) : e.calls = [] := by
  cases e with
  | int n => rfl
  | float y => rfl
  | _ => cases h

/-- With a constant on the left only, the calls on the right stay unless the constant decides. -/
theorem calls_withLeft {x : Number} (hl : number? l = some x) (op : BinaryOp) (r : Expr) (t : Ty) :
    ((withLeft x op l r).getD (.binary op l r t)).calls = if leftDecides op l then [] else r.calls := by
  have hcalls := calls_of_number? hl
  cases op with
  | mul =>
    by_cases hone : x.isOne = true
    · simp [withLeft, leftDecides, hl, hone, Number.isZero_of_isOne hone]
    · by_cases hzero : x.isZero = true <;> simp [withLeft, leftDecides, hl, hone, hzero, hcalls, Expr.calls]
  | add | sub | div =>
    by_cases hzero : x.isZero = true <;> simp [withLeft, leftDecides, hl, hzero, hcalls, Expr.calls]
  | pow => by_cases hone : x.isOne = true <;> simp [withLeft, leftDecides, hl, hone, hcalls, Expr.calls]
  | _ => simp [withLeft, leftDecides, hcalls, Expr.calls]

/-- With a constant on the right only, the calls on the left stay unless the constant decides. -/
theorem calls_withRight {y : Number} (hr : number? r = some y) (op : BinaryOp) (l : Expr) (t : Ty) :
    ((withRight op y l r t).getD (.binary op l r t)).calls = if rightDecides op r then [] else l.calls := by
  have hcalls := calls_of_number? hr
  cases op with
  | mul =>
    by_cases hone : y.isOne = true
    · simp [withRight, rightDecides, hr, hone, Number.isZero_of_isOne hone]
    · by_cases hzero : y.isZero = true <;>
        simp [withRight, rightDecides, hr, hone, hzero, hcalls, Expr.calls]
  | add | sub =>
    by_cases hzero : y.isZero = true <;> simp [withRight, rightDecides, hzero, hcalls, Expr.calls]
  | div => by_cases hone : y.isOne = true <;> simp [withRight, rightDecides, hone, hcalls, Expr.calls]
  | pow =>
    by_cases hzero : y.isZero = true
    · simp only [withRight, rightDecides, hr, hzero, if_true]
      split <;> rfl
    · simp [withRight, rightDecides, hr, hzero, hcalls, Expr.calls]
  | _ => simp [withRight, rightDecides, hcalls, Expr.calls]

theorem leftDecides_of_number? (h : number? l = none) : leftDecides op l = false := by
  cases op <;> simp [leftDecides, h]

theorem rightDecides_of_number? (h : number? r = none) : rightDecides op r = false := by
  cases op <;> simp [rightDecides, h]

/-- An arithmetic operation or a comparison. -/
theorem calls_arith (h : binary? op l r t =
      match number? l, number? r with
      | some x, some y => (Number.fold? x op y).map ofValue
      | some x, none => withLeft x op l r
      | none, some y => withRight op y l r t
      | none, none => none) :
    (binary op l r t).calls = if decided op l r then [] else l.calls ++ r.calls := by
  rw [binary, h, decided]
  cases hl : number? l with
  | some x =>
    cases hr : number? r with
    | some y =>
      -- neither operand has a call
      rw [calls_of_number? hl, calls_of_number? hr]
      cases hv : Number.fold? x op y with
      | some v => simp [hv, calls_ofValue]
      | none => simp [hv, Expr.calls, calls_of_number? hl, calls_of_number? hr]
    | none =>
      rw [rightDecides_of_number? hr, Bool.or_false, calls_of_number? hl, List.nil_append]
      exact calls_withLeft hl op r t
  | none =>
    cases hr : number? r with
    | some y =>
      rw [leftDecides_of_number? hl, Bool.false_or, calls_of_number? hr, List.append_nil]
      exact calls_withRight hr op l t
    | none => simp [leftDecides_of_number? hl, rightDecides_of_number? hr, Expr.calls]

/-- An operation keeps the calls of its operands unless one of them decides it. -/
theorem calls_binary (op : BinaryOp) (l r : Expr) (t : Ty) :
    (binary op l r t).calls = if decided op l r then [] else l.calls ++ r.calls := by
  cases op with
  | coalesce | and | or =>
    -- no constant decides these, and what is left out is a constant
    simp only [binary, binary?, decided, leftDecides, rightDecides]
    split <;> simp [Expr.calls]
  | _ => exact calls_arith rfl

theorem calls_unary (op : UnaryOp) (e : Expr) (t : Ty) : (unary op e t).calls = e.calls := by
  unfold unary
  split
  · next hx => rw [calls_ofNumber, calls_of_number? hx]
  · rfl

end Operations

/-! ### Whole expressions -/

mutual

theorem calls_expr (e : Expr) : (expr e).calls = (keptCalls e).map simplifiedCallee := by
  cases e with
  | binary op l r t =>
    rw [expr, calls_binary, keptCalls, calls_expr l, calls_expr r]
    split
    · rfl
    · rw [List.map_append]
  | unary op e t => rw [expr, calls_unary, keptCalls, calls_expr e]
  | call f args t =>
    rw [expr, Expr.calls, keptCalls, calls_expr f, calls_exprs args, List.map_cons, List.map_append]
    rfl
  | construct c args => rw [expr, Expr.calls, keptCalls, calls_exprs args, List.map_cons]; rfl
  | member o op field t => rw [expr, Expr.calls, keptCalls, calls_expr o]
  | array es t => rw [expr, Expr.calls, keptCalls, calls_exprs es]
  | tuple es t => rw [expr, Expr.calls, keptCalls, calls_exprs es]
  | dict es t => rw [expr, Expr.calls, keptCalls, calls_entries es]
  | _ => rfl

theorem calls_exprs (es : List Expr) : callsOfAll (exprs es) = (keptCallsOfAll es).map simplifiedCallee := by
  cases es with
  | nil => rfl
  | cons e es => rw [exprs, callsOfAll, keptCallsOfAll, calls_expr e, calls_exprs es, List.map_append]

theorem calls_entries (es : List (Expr × Expr)) :
    callsOfEntries (entries es) = (keptCallsOfEntries es).map simplifiedCallee := by
  cases es with
  | nil => rfl
  | cons e es =>
    obtain ⟨k, v⟩ := e
    rw [entries, callsOfEntries, keptCallsOfEntries, calls_expr k, calls_expr v, calls_entries es,
      List.map_append, List.map_append]

end

mutual

theorem keptCalls_sublist (e : Expr) : (keptCalls e).Sublist e.calls := by
  cases e with
  | binary op l r t =>
    rw [keptCalls, Expr.calls]
    split
    · exact List.nil_sublist _
    · exact (keptCalls_sublist l).append (keptCalls_sublist r)
  | unary op e t => exact keptCalls_sublist e
  | call f args t => exact ((keptCalls_sublist f).append (keptCallsOfAll_sublist args)).cons_cons _
  | construct c args => exact (keptCallsOfAll_sublist args).cons_cons _
  | member o op field t => exact keptCalls_sublist o
  | array es t => exact keptCallsOfAll_sublist es
  | tuple es t => exact keptCallsOfAll_sublist es
  | dict es t => exact keptCallsOfEntries_sublist es
  | _ => exact List.Sublist.refl _

theorem keptCallsOfAll_sublist (es : List Expr) : (keptCallsOfAll es).Sublist (callsOfAll es) := by
  cases es with
  | nil => exact List.Sublist.refl _
  | cons e es => exact (keptCalls_sublist e).append (keptCallsOfAll_sublist es)

theorem keptCallsOfEntries_sublist (es : List (Expr × Expr)) :
    (keptCallsOfEntries es).Sublist (callsOfEntries es) := by
  cases es with
  | nil => exact List.Sublist.refl _
  | cons e es =>
    obtain ⟨k, v⟩ := e
    exact ((keptCalls_sublist k).append (keptCalls_sublist v)).append (keptCallsOfEntries_sublist es)

end

/-- Of two lists in a row all is left exactly if all of each is. -/
theorem append_eq_iff_of_sublist {as as' bs bs' : List Callee} (ha : as'.Sublist as)
    (hb : bs'.Sublist bs) : as' ++ bs' = as ++ bs ↔ as' = as ∧ bs' = bs := by
  constructor
  · intro h
    have hlen := congrArg List.length h
    simp only [List.length_append] at hlen
    have hla := ha.length_le
    have hlb := hb.length_le
    exact ⟨ha.eq_of_length (by omega), hb.eq_of_length (by omega)⟩
  · rintro ⟨rfl, rfl⟩
    rfl

mutual

theorem keptCalls_eq_iff (e : Expr) : keptCalls e = e.calls ↔ Lossless e := by
  cases e with
  | binary op l r t =>
    have hl := keptCalls_sublist l
    have hr := keptCalls_sublist r
    rw [keptCalls, Expr.calls, Lossless, ← keptCalls_eq_iff l, ← keptCalls_eq_iff r,
      ← append_eq_iff_of_sublist hl hr]
    split
    · next hd =>
      -- without calls in the operands there is none to lose
      rw [eq_comm]
      refine ⟨fun h => ⟨fun _ => h, ?_⟩, fun h => h.1 hd⟩
      have hall := hl.append hr
      rw [h] at hall ⊢
      exact List.sublist_nil.1 hall
    · next hd => simp [hd]
  | unary op e t => exact keptCalls_eq_iff e
  | call f args t =>
    rw [keptCalls, Expr.calls, Lossless, List.cons_inj_right, ← keptCalls_eq_iff f,
      ← keptCallsOfAll_eq_iff args]
    exact append_eq_iff_of_sublist (keptCalls_sublist f) (keptCallsOfAll_sublist args)
  | construct c args =>
    rw [keptCalls, Expr.calls, Lossless, List.cons_inj_right, keptCallsOfAll_eq_iff args]
  | member o op field t => exact keptCalls_eq_iff o
  | array es t => exact keptCallsOfAll_eq_iff es
  | tuple es t => exact keptCallsOfAll_eq_iff es
  | dict es t => exact keptCallsOfEntries_eq_iff es
  | _ => simp [keptCalls, Expr.calls, Lossless]

theorem keptCallsOfAll_eq_iff (es : List Expr) : keptCallsOfAll es = callsOfAll es ↔ LosslessAll es := by
  cases es with
  | nil => simp [keptCallsOfAll, callsOfAll, LosslessAll]
  | cons e es =>
    rw [keptCallsOfAll, callsOfAll, LosslessAll, ← keptCalls_eq_iff e, ← keptCallsOfAll_eq_iff es]
    exact append_eq_iff_of_sublist (keptCalls_sublist e) (keptCallsOfAll_sublist es)

theorem keptCallsOfEntries_eq_iff (es : List (Expr × Expr)) :
    keptCallsOfEntries es = callsOfEntries es ↔ LosslessEntries es := by
  cases es with
  | nil => simp [keptCallsOfEntries, callsOfEntries, LosslessEntries]
  | cons e es =>
    obtain ⟨k, v⟩ := e
    have hk := keptCalls_sublist k
    have hv := keptCalls_sublist v
    rw [keptCallsOfEntries, callsOfEntries, LosslessEntries, ← keptCalls_eq_iff k, ← keptCalls_eq_iff v,
      ← keptCallsOfEntries_eq_iff es, ← append_eq_iff_of_sublist hk hv]
    exact append_eq_iff_of_sublist (hk.append hv) (keptCallsOfEntries_sublist es)

end

/-- The simplified form of an expression has the calls of the expression in their order, without those in
operations that a constant decides. So it has all of them exactly if there are none to lose. -/
theorem calls_of_simplified (e : Expr) :
    (expr e).calls = (keptCalls e).map simplifiedCallee ∧ (keptCalls e).Sublist e.calls ∧
      ((expr e).calls = e.calls.map simplifiedCallee ↔ Lossless e) := by
  refine ⟨calls_expr e, keptCalls_sublist e, ?_⟩
  rw [← keptCalls_eq_iff e, calls_expr e]
  constructor
  · intro h
    have hlen := congrArg List.length h
    simp only [List.length_map] at hlen
    exact (keptCalls_sublist e).eq_of_length hlen
  · intro h
    rw [h]

/-! A function that prints when it is called, and a product with zero that loses the call. -/

def dropSource : String := "🥘 f -> 🥚: 🍽 🥗 🫗 0 ; 🍽 0 * f()"

def dropTokens : List Token :=
  [⟨.keyword, "🥘", ⟨1, 1⟩⟩, ⟨.ident, "f", ⟨1, 3⟩⟩, ⟨.op, "->", ⟨1, 5⟩⟩, ⟨.type, "🥚", ⟨1, 8⟩⟩, ⟨.op, ":", ⟨1, 9⟩⟩,
   ⟨.keyword, "🍽", ⟨1, 11⟩⟩, ⟨.keyword, "🥗", ⟨1, 13⟩⟩, ⟨.keyword, "🫗", ⟨1, 15⟩⟩, ⟨.number, "0", ⟨1, 17⟩⟩,
   ⟨.op, ";", ⟨1, 19⟩⟩, ⟨.keyword, "🍽", ⟨1, 21⟩⟩, ⟨.number, "0", ⟨1, 23⟩⟩, ⟨.op, "*", ⟨1, 25⟩⟩,
   ⟨.ident, "f", ⟨1, 27⟩⟩, ⟨.op, "(", ⟨1, 28⟩⟩, ⟨.op, ")", ⟨1, 29⟩⟩, ⟨.eof, "", ⟨1, 30⟩⟩]

def dropTree : Tree.Program :=
  [.function ⟨1, 1⟩ "f" none (some (.named ⟨1, 8⟩ "🥚"))
     [.print ⟨1, 11⟩ [.bool ⟨1, 13⟩ true], .ret ⟨1, 15⟩ (some (.num ⟨1, 17⟩ "0"))],
   .print ⟨1, 21⟩ [.binary ⟨1, 23⟩ .mul (.num ⟨1, 23⟩ "0") (.call ⟨1, 27⟩ (.var ⟨1, 27⟩ "f") (some []))]]

def dropFunction : Entity := ⟨14, .function false, "f", .function [] .int⟩

def dropProduct : Expr := .binary .mul (.int 0) (.call (.ref dropFunction) [] .int) .int

def dropProgram : Program where
  statements :=
    [.function (.mk dropFunction [] [.print [.bool true] ⟨1, 11⟩, .ret (some (.int 0)) ⟨1, 15⟩] ⟨1, 1⟩) ⟨1, 1⟩,
     .print [dropProduct] ⟨1, 21⟩]

theorem number_zero (p : Pos) : number "0" p = .ok (.int 0) := by
  have hfloat : Numeral.isFloat "0" = false := rfl
  have hlength : ¬ "0".length > maxDigits := by decide
  have hint : Numeral.int? "0" = some 0 := rfl
  have hfits : Number.fits 0 = true := Number.fits_of_lt (by decide)
  simp [number, hfloat, hlength, hint, hfits]

/-- The source is accepted and its product calls the function. After simplification nothing is called. -/
theorem product_with_zero_drops_call :
    Token.scan dropSource = .ok dropTokens ∧ Parser.run dropTokens = .ok dropTree ∧
    (analyze dropTree).1 = .ok dropProgram ∧
    dropProduct.calls = [.function (.ref dropFunction) .int] ∧ (expr dropProduct).calls = [] := by
  refine ⟨by rfl, by rfl, ?_, by rfl, ?_⟩
  · simp only [analyze, dropTree, Check.block, Check.stmt, Check.ret, Check.expr, infer, inferAll, number_zero]
    rfl
  · rfl

end Snack.Simplify
