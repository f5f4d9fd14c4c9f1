import Mathlib.Algebra.Group.Int.Defs
import Mathlib.Algebra.Group.Nat.Defs
import Mathlib.Data.Nat.Size
import Mathlib.Tactic.SplitIfs
import Snack.Number.Arith

/-! Arithmetic and comparison of integer constants. Integers compare by their values, and a sum, a
difference, a product and a power have their exact value unless that is too wide. A power is looked at
before it is computed, by the widths of its base and of its exponent alone: none that is narrow enough is
refused, and none that is computed takes more than twice the width. -/

namespace Snack.Number

/-! ### Order -/

theorem lt_int (a b : Int) : (int a).lt (int b) = decide (a < b) := by
  rw [Bool.eq_iff_iff, decide_eq_true_iff, ← Int.compare_eq_lt]
  exact beq_iff_eq.trans Option.some_inj

theorem le_int (a b : Int) : (int a).le (int b) = decide (a ≤ b) := by
  rw [Bool.eq_iff_iff, decide_eq_true_iff]
  exact Int.isLE_compare

theorem eq_int (a b : Int) : (int a).eq (int b) = decide (a = b) := by
  rw [Bool.eq_iff_iff, decide_eq_true_iff, ← Int.compare_eq_eq]
  exact beq_iff_eq.trans Option.some_inj

theorem isZero_int (a : Int) : (int a).isZero = decide (a = 0) := eq_int a 0

theorem isOne_int (a : Int) : (int a).isOne = decide (a = 1) := eq_int a 1

theorem eq_of_compareIntFloat {a b : Int} {x : Float} (ha : compareIntFloat a x = some .eq)
    (hb : compareIntFloat b x = some .eq) : a = b := by
  unfold compareIntFloat at ha hb
  cases hx : unpack x with
  | notANumber => simp [hx] at ha
  | infinity s => cases s <;> simp [hx] at ha
  | zero s =>
    simp only [hx, Option.some.injEq, Std.compare_eq_iff_eq] at ha hb
    omega
  | finite s m e h =>
    rw [hx] at ha hb
    dsimp only at ha hb
    rw [Option.some.injEq] at ha hb
    split at ha
    · next he =>
      rw [if_pos he, Std.compare_eq_iff_eq] at hb
      rw [Std.compare_eq_iff_eq] at ha
      exact ha.trans hb.symm
    · next he =>
      have hpos : (0 : Int) < Int.pow 2 (-e).toNat := Int.pow_pos (by decide)
      rw [if_neg he, Std.compare_eq_iff_eq] at hb
      rw [Std.compare_eq_iff_eq] at ha
      exact Int.eq_of_mul_eq_mul_right (Int.ne_of_gt hpos) (ha.trans hb.symm)

/-- A number equals at most one integer. -/
theorem eq_of_eq_int {x : Number} {a b : Int} (ha : x.eq (int a) = true) (hb : x.eq (int b) = true) :
    a = b := by
  simp only [eq, beq_iff_eq] at ha hb
  cases x with
  | int n =>
    simp only [compare?, Option.some.injEq, Std.compare_eq_iff_eq] at ha hb
    exact ha.symm.trans hb
  | float x =>
    simp only [compare?, Option.map_eq_some_iff, Ordering.swap_eq_eq] at ha hb
    obtain ⟨_, ha, rfl⟩ := ha
    obtain ⟨_, hb, rfl⟩ := hb
    exact eq_of_compareIntFloat ha hb

theorem isZero_of_isOne {x : Number} (h : x.isOne = true) : x.isZero = false := by
  rw [Bool.eq_false_iff]
  intro hzero
  have heq := eq_of_eq_int h hzero
  omega

/-! ### Widths -/

/-- An integer as a value, unless it has more than 1024 bits. -/
def narrow? (n : Int) : Option Value :=
  if n.natAbs < 2 ^ maxBits then some (.number (.int n)) else none

theorem ofNumber?_int (n : Int) : Value.ofNumber? (int n) = narrow? n := by
  simp only [Value.ofNumber?, narrow?, fits, decide_eq_true_eq, Nat.pow_eq]

section Powers

variable {a n : Nat}

/-- A power has at least the width of its base, less one, times its exponent. -/
theorem two_pow_le_pow (ha : a ≠ 0) : 2 ^ (a.log2 * n) ≤ a ^ n := by
  rw [Nat.pow_mul]
  exact Nat.pow_le_pow_left (Nat.log2_self_le ha) n

/-- A power has at most the width of its base times its exponent. -/
theorem pow_lt_two_pow (hn : n ≠ 0) : a ^ n < 2 ^ ((a.log2 + 1) * n) := by
  rw [Nat.pow_mul]
  exact Nat.pow_lt_pow_left Nat.lt_log2_self hn

end Powers

/-- What is refused: a proper power whose least width is above the limit. -/
theorem powerOverflows_iff (x : Int) (n : Nat) :
    powerOverflows x n = true ↔ n ≠ 0 ∧ 2 ≤ x.natAbs ∧ maxBits < x.natAbs.log2 * n := by
  have hcast : ((maxBits : Int) < (x.natAbs.log2 : Int) * (n : Int)) ↔ maxBits < x.natAbs.log2 * n := by
    exact_mod_cast Iff.rfl
  simp only [powerOverflows, Bool.and_eq_true, decide_eq_true_eq, hcast]
  omega

theorem width_of_powerOverflows {x : Int} {n : Nat} (h : powerOverflows x n = true) :
    2 ^ maxBits < (x ^ n).natAbs := by
  obtain ⟨-, hx, hwidth⟩ := (powerOverflows_iff x n).1 h
  rw [Int.natAbs_pow]
  calc 2 ^ maxBits < 2 ^ (x.natAbs.log2 * n) := Nat.pow_lt_pow_right (by decide) hwidth
    _ ≤ x.natAbs ^ n := two_pow_le_pow (by omega)

theorem size_of_not_powerOverflows {x : Int} {n : Nat} (h : powerOverflows x n = false) :
    (x ^ n).natAbs.size ≤ 2 * maxBits := by
  have h := mt (powerOverflows_iff x n).2 (by rw [h]; decide)
  rw [Int.natAbs_pow, Nat.size_le]
  by_cases hn : n = 0
  · rw [hn, Nat.pow_zero]
    exact Nat.one_lt_two_pow (by decide)
  · by_cases hx : 2 ≤ x.natAbs
    · have hwidth : x.natAbs.log2 * n ≤ maxBits := by
        refine Nat.le_of_not_lt fun hgt => ?_
        exact h ⟨hn, hx, hgt⟩
      have hlog : 1 ≤ x.natAbs.log2 := (Nat.le_log2 (by omega)).2 hx
      calc x.natAbs ^ n < 2 ^ ((x.natAbs.log2 + 1) * n) := pow_lt_two_pow hn
        _ ≤ 2 ^ (2 * maxBits) := by
          refine Nat.pow_le_pow_right (by decide) ?_
          have hdouble : (x.natAbs.log2 + 1) * n ≤ (2 * x.natAbs.log2) * n :=
            Nat.mul_le_mul_right n (by omega)
          rw [Nat.mul_assoc] at hdouble
          omega
    · -- powers of zero and one are no larger than one
      calc x.natAbs ^ n ≤ 1 ^ n := Nat.pow_le_pow_left (by omega) n
        _ = 1 := Nat.one_pow n
        _ < 2 ^ (2 * maxBits) := Nat.one_lt_two_pow (by decide)

theorem fold?_add (x y : Int) : fold? (int x) .add (int y) = narrow? (x + y) := by
  show (some (int (x + y))).bind Value.ofNumber? = _
  rw [Option.bind_some, ofNumber?_int]

theorem fold?_sub (x y : Int) : fold? (int x) .sub (int y) = narrow? (x - y) := by
  show (some (int (x - y))).bind Value.ofNumber? = _
  rw [Option.bind_some, ofNumber?_int]

theorem fold?_mul (x y : Int) : fold? (int x) .mul (int y) = narrow? (x * y) := by
  show (some (int (x * y))).bind Value.ofNumber? = _
  rw [Option.bind_some, ofNumber?_int]

/-- A power is folded as if it had been computed and then looked at. -/
theorem fold?_pow (x : Int) (n : Nat) : fold? (int x) .pow (int n) = narrow? (x ^ n) := by
  have hpow : intPow x n = x ^ n := intPow_eq x n
  simp only [fold?, pow?, Int.natCast_nonneg, if_true, Int.toNat_natCast, hpow]
  split
  · next h =>
    have hwide := width_of_powerOverflows h
    rw [narrow?, if_neg (Nat.not_lt.2 (Nat.le_of_lt hwide))]
    rfl
  · rw [Option.bind_some, ofNumber?_int]

/-- On integers of any size a sum, a difference, a product and a power with an exponent from zero on fold to
their exact value if it has at most 1024 bits and to nothing otherwise, and a comparison to its truth
value. The guard on powers refuses none that has at most 1024 bits, and what it lets through has at most
2048. -/
theorem fold?_int_exact (x y : Int) (n : Nat) :
    fold? (int x) .add (int y) = narrow? (x + y) ∧
    fold? (int x) .sub (int y) = narrow? (x - y) ∧
    fold? (int x) .mul (int y) = narrow? (x * y) ∧
    fold? (int x) .pow (int n) = narrow? (x ^ n) ∧
    fold? (int x) .lt (int y) = some (.bool (x < y)) ∧
    fold? (int x) .le (int y) = some (.bool (x ≤ y)) ∧
    fold? (int x) .eq (int y) = some (.bool (x = y)) ∧
    fold? (int x) .ne (int y) = some (.bool (x ≠ y)) ∧
    fold? (int x) .ge (int y) = some (.bool (x ≥ y)) ∧
    fold? (int x) .gt (int y) = some (.bool (x > y)) ∧
    ((x ^ n).natAbs < 2 ^ maxBits → powerOverflows x n = false) ∧
    (powerOverflows x n = false → (intPow x n).natAbs.size ≤ 2048) := by
  refine ⟨fold?_add x y, fold?_sub x y, fold?_mul x y, fold?_pow x n, ?_, ?_, ?_, ?_, ?_, ?_, ?_, ?_⟩
  · rw [fold?, lt_int]
  · rw [fold?, le_int]
  · rw [fold?, eq_int]
  · rw [fold?, eq_int, ← decide_not]
  · rw [fold?, le_int]
  · rw [fold?, lt_int]
  · intro hnarrow
    rw [Bool.eq_false_iff]
    exact fun h => Nat.lt_asymm hnarrow (width_of_powerOverflows h)
  · intro h
    have hpow : intPow x n = x ^ n := intPow_eq x n
    rw [hpow]
    exact size_of_not_powerOverflows h

/-- At the edge: the guard lets the 1024th power of minus two through, and it is found too wide only when
it is there. The power before it is folded. -/
theorem fold?_int_exact_edge :
    fold? (int (-2)) .pow (int (1023 : Nat)) = some (.number (int (-Int.pow 2 1023))) ∧
    powerOverflows (-2) (1023 : Nat) = false ∧
    fold? (int (-2)) .pow (int (1024 : Nat)) = none ∧
    powerOverflows (-2) (1024 : Nat) = false ∧ (intPow (-2) 1024).natAbs.size ≤ 2048 ∧
    fold? (int (-2)) .lt (int 5) = some (.bool true) := by
  obtain ⟨-, -, -, hbelow, -, -, -, -, -, -, hguard, -⟩ := fold?_int_exact (-2) 5 1023
  obtain ⟨-, -, -, habove, hlt, -, -, -, -, -, -, hwidth⟩ := fold?_int_exact (-2) 5 1024
  exact ⟨hbelow.trans (by decide +kernel), hguard (by decide +kernel), habove.trans (by decide +kernel),
    by decide +kernel, hwidth (by decide +kernel), hlt⟩

end Snack.Number
