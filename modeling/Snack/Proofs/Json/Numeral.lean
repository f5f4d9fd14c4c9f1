import Snack.Json.Render
import Snack.Proofs.Json.Reader
import Snack.Proofs.Number.Layout

/-! Numbers as they are written. Every integer and every finite float is written as a number of the data
format, from which it is read back. -/

namespace Snack.Json

open Numeral (isDigit inNumber isFloat Digits Exponent Fraction)
open Shortest (digits_toDigits toList_toString value_toDigits)

/-! ### Integers -/

/-- No zero stands in front of the digits of a positive number. -/
theorem head_toDigits {n : Nat} (h : 0 < n) : (Nat.toDigits 10 n).head? ≠ some '0' := by
  induction n using Nat.strongRecOn with
  | ind n ih =>
    by_cases hn : n < 10
    · have hdigit : ∀ m < 10, 0 < m → [m.digitChar].head? ≠ some '0' := by decide
      rw [Nat.toDigits_of_lt_base hn]
      exact hdigit n hn h
    · have hne : Nat.toDigits 10 (n / 10) ≠ [] := Nat.toDigits_ne_nil
      rw [Nat.toDigits_of_base_le (by decide) (by omega), List.head?_append, List.head?_eq_some_head hne,
        Option.some_or, ← List.head?_eq_some_head hne]
      exact ih (n / 10) (by omega) (by omega)

theorem whole_toDigits (n : Nat) : Whole (Nat.toDigits 10 n) := by
  rcases Nat.eq_zero_or_pos n with rfl | h
  · rw [Nat.toDigits_zero]
    exact .zero
  · exact .digits (digits_toDigits n) (head_toDigits h)

theorem Whole.unsigned {cs : List Char} (h : Whole cs) : Unsigned cs := by
  have hparts := Unsigned.mk h .none .none
  rwa [List.append_nil, List.append_nil] at hparts

theorem isFloat_of_digits {cs : List Char} (h : Digits cs) : isFloat (.ofList cs) = false := by
  rw [isFloat, String.toList_ofList, List.any_eq_false]
  intro c hc hmark
  have hdigit := h.all c hc
  simp only [Bool.or_eq_true, beq_iff_eq] at hmark
  rcases hmark with (rfl | rfl) | rfl <;> exact absurd hdigit (by decide)

/-- A minus sign makes no float of an integer. -/
theorem isFloat_minus (cs : List Char) : isFloat (.ofList ('-' :: cs)) = isFloat (.ofList cs) := by
  rw [isFloat, isFloat, String.toList_ofList, String.toList_ofList, List.any_cons]
  rfl

theorem int?_minus {cs : List Char} (h : Digits cs) :
    Numeral.int? (.ofList ('-' :: cs)) = some (-(Numeral.digits cs : Int)) := by
  have hall : ∀ c ∈ '-' :: cs, inNumber c = true := List.forall_mem_cons.2 ⟨rfl, h.inNumber⟩
  rw [Numeral.int?, Numeral.plain?_eq hall, Option.bind_some, Numeral.signed?, Numeral.splitSign]
  simp [Numeral.digits?_eq h]

theorem numeral?_of_isNumber {cs : List Char} (h : IsNumber cs) : numeral? cs =
    if isFloat (.ofList cs) then (Numeral.float? (.ofList cs)).map float else (Numeral.int? (.ofList cs)).map int := by
  rw [numeral?, isNumber_iff.2 h]
  rfl

theorem toList_toString_int (n : Int) : (toString n).toList =
    if n < 0 then '-' :: Nat.toDigits 10 n.natAbs else Nat.toDigits 10 n.natAbs := by
  cases n with
  | ofNat n =>
    rw [if_neg (by simp)]
    exact toList_toString n
  | negSucc n =>
    have htext : (toString (Int.negSucc n)).toList = ("-" ++ (n + 1).repr).toList := rfl
    rw [if_pos (Int.negSucc_lt_zero n), htext, String.toList_append, Nat.toList_repr]
    rfl

/-- An integer is written as a number, from which it is read back. -/
theorem numeral?_int (n : Int) : IsNumber (toString n).toList ∧ numeral? (toString n).toList = some (int n) := by
  have hwhole := whole_toDigits n.natAbs
  have hvalue := value_toDigits n.natAbs
  rw [toList_toString_int]
  split
  · next hneg =>
    have hnumber : IsNumber ('-' :: Nat.toDigits 10 n.natAbs) := .neg hwhole.unsigned
    have habs : -(n.natAbs : Int) = n := by omega
    refine ⟨hnumber, ?_⟩
    rw [numeral?_of_isNumber hnumber, isFloat_minus, isFloat_of_digits hwhole.isDigits, int?_minus hwhole.isDigits,
      hvalue, habs]
    rfl
  · next hpos =>
    have hnumber : IsNumber (Nat.toDigits 10 n.natAbs) := .pos hwhole.unsigned
    have habs : (n.natAbs : Int) = n := by omega
    refine ⟨hnumber, ?_⟩
    rw [numeral?_of_isNumber hnumber, isFloat_of_digits hwhole.isDigits, Numeral.int?_of_digits hwhole.isDigits,
      hvalue, habs]
    rfl

/-! ### Floats -/

theorem isFloat_of_parts {whole frac exp : List Char} (hf : Fraction frac) (he : Exponent exp)
    (h : frac ≠ [] ∨ exp ≠ []) : isFloat (.ofList (whole ++ (frac ++ exp))) = true := by
  rw [isFloat, String.toList_ofList, List.any_eq_true]
  rcases h with h | h
  · cases hf with
    | none => exact absurd rfl h
    | point => exact ⟨'.', by simp, rfl⟩
  · cases he with
    | none => exact absurd rfl h
    | @mark c _ _ hc => exact ⟨c, by simp, by rcases Numeral.eq_of_mark hc with rfl | rfl <;> rfl⟩

/-- A decimal is laid out as a number with a point or an exponent. -/
theorem unsigned_layout {units : Nat} (h : 0 < units) (k : Int) :
    Unsigned (Shortest.layout units k) ∧ isFloat (.ofList (Shortest.layout units k)) = true := by
  obtain ⟨whole, frac, exp, hlayout, hparts⟩ := Shortest.parts_of_laid (Shortest.laid_layout units k)
  rw [hlayout]
  refine ⟨.mk ?_ hparts.fraction hparts.exponent, isFloat_of_parts hparts.fraction hparts.exponent hparts.marked⟩
  rcases hparts.lead with rfl | hhead
  · exact .zero
  · exact .digits hparts.digits (hhead ▸ head_toDigits h)

theorem isNumber_withSign {cs : List Char} (h : Unsigned cs) (s : Float.Model.UnpackedFloat.Sign) :
    IsNumber (Shortest.withSign s cs) := by
  cases s with
  | positive => exact .pos h
  | negative => exact .neg h

theorem isFloat_withSign {cs : List Char} (h : isFloat (.ofList cs) = true) (s : Float.Model.UnpackedFloat.Sign) :
    isFloat (.ofList (Shortest.withSign s cs)) = true := by
  cases s with
  | positive => exact h
  | negative => exact (isFloat_minus cs).trans h

/-- A finite float is written as a number, from which it is read back. -/
theorem numeral?_float {x : Float} (h : Shortest.IsFinite x) :
    IsNumber (Shortest.text x).toList ∧ numeral? (Shortest.text x).toList = some (float x) := by
  obtain ⟨s, cs, htext, hcs, hfloat⟩ : ∃ s cs, Shortest.text x = .ofList (Shortest.withSign s cs) ∧
      Unsigned cs ∧ isFloat (.ofList cs) = true := by
    cases h with
    | zero h =>
      exact ⟨_, _, Shortest.text_zero h, .mk .zero (.point Shortest.digits_zero) .none, rfl⟩
    | finite h =>
      exact ⟨_, _, Shortest.text_finite h, unsigned_layout (Shortest.digits_pos (Shortest.fits_of_unpack h)) _⟩
  have hread := Shortest.float?_text h
  rw [htext] at hread ⊢
  have hnumber := isNumber_withSign hcs s
  rw [String.toList_ofList]
  refine ⟨hnumber, ?_⟩
  rw [numeral?_of_isNumber hnumber, isFloat_withSign hfloat, hread]
  rfl

end Snack.Json
