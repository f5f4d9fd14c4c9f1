import Mathlib.Tactic.SplitIfs
import Snack.Proofs.Number.Floats
import Snack.Proofs.Number.Integers
import Snack.Simplify.Expr

/-! The identities that need only one literal, beside the folding of two. A rule for `x / 1` or `1 ** x` is
applied without knowing `x`, so it has to give what folding would give for whatever integer `x` turns out
to be. Proved: it does, for every integer that a float holds exactly, but for the quotient `0 / x`: it
becomes zero where folding a division by zero gives nothing. -/

namespace Snack.Simplify

open Snack.Core
open Snack.Number (narrow? fold?)

/-! ### Values with an unknown operand -/

/-- Whether an expression is a literal: a number, a string, a truth value or an empty optional. -/
def isLiteral : Expr → Bool
  | .int _ | .float _ | .str _ | .bool _ | .emptyOptional _ => true
  | _ => false

/-- `Valued x n e v`: with the number `n` in the place of `x`, the expression `e` is the number `v`. -/
inductive Valued (x : Expr) (n : Number) : Expr → Number → Prop where
  | operand : Valued x n x n
  | literal {e : Expr} {v : Number} (hx : e ≠ x) (h : number? e = some v) : Valued x n e v
  | negated {e : Expr} {v : Number} {t : Ty} (hx : .unary .neg e t ≠ x) (h : Valued x n e v) :
    Valued x n (.unary .neg e t) v.neg

theorem Valued.unique {x e : Expr} {n v w : Number} (hv : Valued x n e v) (hw : Valued x n e w) : v = w := by
  induction hv generalizing w with
  | operand =>
    cases hw with
    | operand => rfl
    | literal hx => exact absurd rfl hx
    | negated hx => exact absurd rfl hx
  | literal hx h =>
    cases hw with
    | operand => exact absurd rfl hx
    | literal _ h' => exact Option.some.inj (h.symm.trans h')
    | negated => cases h
  | negated hx _ ih =>
    cases hw with
    | operand => exact absurd rfl hx
    | literal _ h' => cases h'
    | negated _ h' => rw [ih h']

/-- A folded value is there, and it equals the one value that `e` has with `n` in the place of `x`. -/
def Confirms (folded : Option Number.Value) (x : Expr) (n : Number) (e : Expr) : Prop :=
  ∃ u v, folded = some (.number u) ∧ (∀ w, Valued x n e w ↔ w = v) ∧ u.eq v = true

section Confirmed

variable {folded : Option Number.Value} {x e : Expr} {n u v : Number}

theorem Confirms.of_valued (hv : Valued x n e v) (hu : folded = some (.number u)) (h : u.eq v = true) :
    Confirms folded x n e :=
  ⟨u, v, hu, fun _ => ⟨fun hw => hw.unique hv, fun hw => hw ▸ hv⟩, h⟩

theorem number?_of_not_isLiteral (hx : isLiteral x = false) : number? x = none := by
  cases x with
  | int | float => cases hx
  | _ => rfl

theorem valued_literal (hx : isLiteral x = false) (h : number? e = some v) : Valued x n e v := by
  refine .literal ?_ h
  rintro rfl
  rw [number?_of_not_isLiteral hx] at h
  cases h

theorem valued_neg (t : Ty) : Valued x n (.unary .neg x t) n.neg := by
  refine .negated (fun h => ?_) .operand
  have hsize := congrArg sizeOf h
  simp only [Expr.unary.sizeOf_spec] at hsize
  omega

end Confirmed

/-! ### What folding gives -/

section Folded

variable {n : Int}

theorem narrow?_of_lt (h : n.natAbs < 2 ^ 53) : narrow? n = some (.number (.int n)) :=
  if_pos (Nat.lt_of_lt_of_le h (Nat.pow_le_pow_right (by decide) (by decide)))

theorem eq_int_self (n : Int) : (Number.int n).eq (.int n) = true := by
  rw [Number.eq_int, decide_eq_true rfl]

theorem eq_one_float : (Number.int 1).eq (.float Number.one) = true := by decide +kernel

theorem Confirms.of_narrow {folded : Option Number.Value} {x e : Expr} {v : Number} (hv : Valued x v e (.int n))
    (hfolded : folded = narrow? n) (hn : n.natAbs < 2 ^ 53) : Confirms folded x v e :=
  .of_valued hv (hfolded.trans (narrow?_of_lt hn)) (eq_int_self n)

theorem fold?_div_one (h : n.natAbs < 2 ^ 53) :
    ∃ u, fold? (.int n) .div (.int 1) = some (.number u) ∧ u.eq (.int n) = true := by
  obtain ⟨y, hy, hexact⟩ := Number.quotient?_one h
  refine ⟨.float y, ?_, hexact.eq⟩
  rw [fold?, Number.div?, hy]
  rfl

theorem fold?_zero_div (hn : n ≠ 0) :
    ∃ u, fold? (.int 0) .div (.int n) = some (.number u) ∧ u.eq (.int 0) = true := by
  obtain ⟨y, hy, hexact⟩ := Number.zero_quotient? hn
  refine ⟨.float y, ?_, hexact.eq⟩
  rw [fold?, Number.div?, hy]
  rfl

theorem fold?_pow_zero (n : Int) : fold? (.int n) .pow (.int 0) = some (.number (.int 1)) := by
  have hpow := Number.fold?_pow n 0
  rw [Int.pow_zero, narrow?_of_lt (by decide)] at hpow
  exact hpow

/-- A power of one is one, as a float if the exponent is negative. -/
theorem fold?_one_pow (h : n.natAbs < 2 ^ 53) :
    ∃ u, fold? (.int 1) .pow (.int n) = some (.number u) ∧ u.eq (.int 1) = true := by
  cases n with
  | ofNat n =>
    refine ⟨.int 1, ?_, eq_int_self 1⟩
    rw [Int.ofNat_eq_natCast, Number.fold?_pow, Int.one_pow]
    exact narrow?_of_lt (by decide)
  | negSucc n =>
    obtain ⟨y, hy, hexact⟩ := Number.toFloat?_exact h
    refine ⟨.float Number.one, ?_, Number.exactly_one.eq⟩
    have hguard : Number.powerOverflows 1 (Int.negSucc n) = false := rfl
    have hsign : ¬ 0 ≤ Int.negSucc n := Int.not_le.2 (Int.negSucc_lt_zero n)
    have hpow : Number.pow? (.int 1) (.int (Int.negSucc n)) = some (.float Number.one) := by
      rw [Number.pow?, hguard, if_neg (by decide), if_neg hsign, Number.toFloat?_one, hy]
      exact congrArg (Option.map Number.float) (Number.floatPow?_one hexact)
    rw [fold?, hpow]
    rfl

end Folded

/-! ### The identities -/

section Identities

variable {op : BinaryOp} {k n : Int} {x e : Expr} {t : Ty}

theorem confirms_withLeft (hx : isLiteral x = false) (hn : n.natAbs < 2 ^ 53) (hdiv : op = .div → n ≠ 0)
    (h : withLeft (.int k) op (.int k) x = some e) : Confirms (fold? (.int k) op (.int n)) x (.int n) e := by
  cases op <;> simp only [withLeft, Number.isZero_int, Number.isOne_int, decide_eq_true_eq, reduceCtorEq] at h
  case add =>
    split_ifs at h with hk
    cases h
    subst hk
    exact .of_narrow .operand (by rw [Number.fold?_add, Int.zero_add]) hn
  case sub =>
    split_ifs at h with hk
    cases h
    subst hk
    exact .of_narrow (valued_neg _) (by rw [Number.fold?_sub, Int.zero_sub]) (by rwa [Int.natAbs_neg])
  case mul =>
    split_ifs at h with hone hzero
    · cases h
      subst hone
      exact .of_narrow .operand (by rw [Number.fold?_mul, Int.one_mul]) hn
    · cases h
      subst hzero
      exact .of_narrow (valued_literal hx rfl) (by rw [Number.fold?_mul, Int.zero_mul]) (by decide)
  case div =>
    split_ifs at h with hk
    cases h
    subst hk
    obtain ⟨u, hu, heq⟩ := fold?_zero_div (hdiv rfl)
    exact .of_valued (valued_literal hx rfl) hu heq
  case pow =>
    split_ifs at h with hk
    cases h
    subst hk
    obtain ⟨u, hu, heq⟩ := fold?_one_pow hn
    exact .of_valued (valued_literal hx rfl) hu heq

theorem confirms_withRight (hx : isLiteral x = false) (hn : n.natAbs < 2 ^ 53)
    (h : withRight op (.int k) x (.int k) t = some e) :
    Confirms (fold? (.int n) op (.int k)) x (.int n) e := by
  cases op <;> simp only [withRight, Number.isZero_int, Number.isOne_int, decide_eq_true_eq, reduceCtorEq] at h
  case add =>
    split_ifs at h with hk
    cases h
    subst hk
    exact .of_narrow .operand (by rw [Number.fold?_add, Int.add_zero]) hn
  case sub =>
    split_ifs at h with hk
    cases h
    subst hk
    exact .of_narrow .operand (by rw [Number.fold?_sub, Int.sub_zero]) hn
  case mul =>
    split_ifs at h with hone hzero
    · cases h
      subst hone
      exact .of_narrow .operand (by rw [Number.fold?_mul, Int.mul_one]) hn
    · cases h
      subst hzero
      exact .of_narrow (valued_literal hx rfl) (by rw [Number.fold?_mul, Int.mul_zero]) (by decide)
  case div =>
    split_ifs at h with hk
    cases h
    subst hk
    obtain ⟨u, hu, heq⟩ := fold?_div_one hn
    exact .of_valued .operand hu heq
  case pow =>
    split_ifs at h with hk
    subst hk
    -- the type of the operation decides which one is written
    split at h
    · cases h
      exact .of_valued (valued_literal hx rfl) (fold?_pow_zero n) (eq_int_self 1)
    · cases h
      exact .of_valued (valued_literal hx rfl) (fold?_pow_zero n) eq_one_float

/-- Beside an operand that is no literal, a number on the left leaves only the rules for numbers. -/
theorem withLeft_of_binary? (hx : isLiteral x = false) (h : binary? op (.int k) x t = some e) :
    withLeft (.int k) op (.int k) x = some e := by
  unfold binary? at h
  split at h
  · cases h
  · split at h
    · next hl => cases hl
    · cases hx
    · cases h
  · split at h
    · next hl => cases hl
    · cases hx
    · cases h
  · rw [number?_of_not_isLiteral hx] at h
    exact h

theorem withRight_of_binary? (hx : isLiteral x = false) (h : binary? op x (.int k) t = some e) :
    withRight op (.int k) x (.int k) t = some e := by
  unfold binary? at h
  split at h
  · split at h
    · cases hx
    · cases h
  · split at h
    · cases hx
    · next hr => cases hr
    · cases h
  · split at h
    · cases hx
    · next hr => cases hr
    · cases h
  · rw [number?_of_not_isLiteral hx] at h
    exact h

end Identities

/-- An identity with an integer literal on one side and an operand `x` that is no literal on the other
gives what folding gives for every integer in the place of `x` that a float holds exactly, but for a
division by zero. -/
theorem identity_agrees_with_folding (op : BinaryOp) (k n : Int) (x e : Expr) (t : Ty)
    (hx : isLiteral x = false) (hn : n.natAbs < 2 ^ 53) :
    (binary? op (.int k) x t = some e → ¬(op = .div ∧ n = 0) →
      Confirms (fold? (.int k) op (.int n)) x (.int n) e) ∧
    (binary? op x (.int k) t = some e → Confirms (fold? (.int n) op (.int k)) x (.int n) e) :=
  ⟨fun h hdiv => confirms_withLeft hx hn (fun hop hzero => hdiv ⟨hop, hzero⟩) (withLeft_of_binary? hx h),
    fun h => confirms_withRight hx hn (withRight_of_binary? hx h)⟩

/-- A power of one is rewritten to one, and for the exponent minus three folding finds it too, as a float. -/
theorem identity_agrees_with_folding_power :
    binary? .pow (.int 1) (.ref ⟨20, .var true, "x", .int⟩) .int = some (.int 1) ∧
      Confirms (fold? (.int 1) .pow (.int (-3))) (.ref ⟨20, .var true, "x", .int⟩) (.int (-3)) (.int 1) :=
  ⟨rfl, (identity_agrees_with_folding .pow 1 (-3) _ _ .int rfl (by decide)).1 rfl (by decide)⟩

/-- Zero divided by a variable is rewritten to zero, but folding has no quotient of zero and zero. -/
theorem folding_refuses_zero_div_zero :
    binary? .div (.int 0) (.ref ⟨20, .var true, "x", .int⟩) .int = some (.int 0) ∧
      fold? (.int 0) .div (.int 0) = none :=
  ⟨rfl, rfl⟩

end Snack.Simplify
