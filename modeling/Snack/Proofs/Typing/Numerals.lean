import Mathlib.Data.Nat.Digits.Lemmas
import Snack.Proofs.Number.Numeral
import Snack.Typing.Expr

/-! Integer literals. They are written in decimal digits of any script, and one of more than 1024 bits is too
large. Very long ones are refused by their length alone, before they are read. Proved: this refuses just
the numbers that are too large if no zeros stand in front, but with enough of these it refuses small
numbers too. -/

/-! ### Decimal digits -/

namespace Snack.Numeral

/-- A text of decimal digits. -/
structure Decimals (text : String) : Prop where
  ne_nil : text.toList ≠ []
  all : ∀ c ∈ text.toList, (Text.digit? c).isSome = true

theorem decimals_ofList {cs : List Char} :
    Decimals (String.ofList cs) ↔ cs ≠ [] ∧ cs.all (fun c => (Text.digit? c).isSome) = true := by
  rw [List.all_eq_true]
  constructor
  · rintro ⟨hne, hall⟩
    rw [String.toList_ofList] at hne hall
    exact ⟨hne, hall⟩
  · rintro ⟨hne, hall⟩
    exact ⟨by rwa [String.toList_ofList], by rwa [String.toList_ofList]⟩

/-- What a digit stands for. -/
def digitValue (c : Char) : Nat := (Text.digit? c).getD 0

/-- The number that a text of decimal digits stands for. -/
def decimalValue (text : String) : Nat := Nat.ofDigits 10 (text.toList.map digitValue).reverse

theorem decimalValue_ofList (cs : List Char) :
    decimalValue (String.ofList cs) = Nat.ofDigits 10 (cs.map digitValue).reverse := by
  rw [decimalValue, String.toList_ofList]

section Characters

variable {c : Char} {d : Nat}

/-- A digit is one of ten in a row. -/
theorem exists_zero_of_digit? (h : Text.digit? c = some d) : ∃ z ∈ Text.zeros, c.toNat = z + d ∧ d < 10 := by
  obtain ⟨z, hz, rfl⟩ := Option.map_eq_some_iff.1 h
  have hrow := List.find?_some hz
  rw [Bool.and_eq_true, decide_eq_true_eq, decide_eq_true_eq] at hrow
  exact ⟨z, List.mem_of_find?_eq_some hz, by omega, by omega⟩

theorem isPadding_of_digit? (h : Text.digit? c = some d) : isPadding c = false := by
  obtain ⟨z, hz, hc, hd⟩ := exists_zero_of_digit? h
  have hapart : ∀ z ∈ Text.zeros, ∀ r ∈ Text.blankRanges, r.2 < z ∨ z + 10 ≤ r.1 := by decide
  have hblank : Text.isBlank c = false := by
    rw [Text.isBlank, List.any_eq_false]
    intro r hr hin
    rw [Bool.and_eq_true, decide_eq_true_eq, decide_eq_true_eq] at hin
    have hfar := hapart z hz r hr
    omega
  rw [isPadding, hblank, Bool.false_and]

theorem plainDigit_of_digit? (h : Text.digit? c = some d) :
    isDigit (Text.plainDigit c) = true ∧ (Text.plainDigit c).toNat - '0'.toNat = d := by
  obtain ⟨-, -, -, hd⟩ := exists_zero_of_digit? h
  have hten : ∀ d < 10, isDigit (Char.ofNat (48 + d)) = true ∧ (Char.ofNat (48 + d)).toNat - '0'.toNat = d := by
    decide
  rw [Text.plainDigit, h]
  exact hten d hd

end Characters

section Texts

variable {text : String}

theorem digits_plainDigit {cs : List Char} (h : ∀ c ∈ cs, (Text.digit? c).isSome = true) :
    digits (cs.map Text.plainDigit) = Nat.ofDigits 10 (cs.map digitValue).reverse := by
  -- the last digit counts once on both sides
  induction cs using List.reverseRecOn with
  | nil => rfl
  | append_singleton cs c ih =>
    obtain ⟨hcs, hc⟩ := List.forall_mem_append.1 h
    obtain ⟨d, hd⟩ := Option.isSome_iff_exists.1 (hc c (List.mem_singleton_self c))
    have hlast : digits (cs.map Text.plainDigit ++ [Text.plainDigit c]) =
        10 * digits (cs.map Text.plainDigit) + d := by
      rw [digits, List.foldl_append, ← digits, List.foldl_cons, List.foldl_nil, (plainDigit_of_digit? hd).2]
    rw [List.map_append, List.map_singleton, hlast, ih hcs, List.map_append, List.map_singleton,
      List.reverse_append, List.reverse_singleton, List.singleton_append, Nat.ofDigits_cons, digitValue, hd,
      Option.getD_some, Nat.add_comm]

theorem Decimals.isFloat (h : Decimals text) : isFloat text = false := by
  rw [Numeral.isFloat, List.any_eq_false]
  intro c hc hmark
  have hdigit := h.all c hc
  simp only [Bool.or_eq_true, beq_iff_eq, or_assoc] at hmark
  rcases hmark with rfl | rfl | rfl <;> exact absurd hdigit (by decide)

/-- Decimal digits are read as the number that they stand for. -/
theorem Decimals.int? (h : Decimals text) : int? text = some (decimalValue text : Int) := by
  have hplain : ∀ c ∈ text.toList.map Text.plainDigit, isDigit c = true := by
    refine List.forall_mem_map.2 fun c hc => ?_
    obtain ⟨d, hd⟩ := Option.isSome_iff_exists.1 (h.all c hc)
    exact (plainDigit_of_digit? hd).1
  have hpadding : ∀ c ∈ text.toList, isPadding c = false := by
    intro c hc
    obtain ⟨d, hd⟩ := Option.isSome_iff_exists.1 (h.all c hc)
    exact isPadding_of_digit? hd
  have hdigits : Digits (text.toList.map Text.plainDigit) :=
    ⟨fun hnil => h.ne_nil (List.map_eq_nil_iff.1 hnil), hplain⟩
  -- what is left to read is the plain spelling, digit by digit
  have hread : plain? text = plain? (String.ofList (text.toList.map Text.plainDigit)) := by
    rw [plain?_eq hdigits.inNumber, plain?, trim_eq hpadding, ungrouped?_eq]
    rintro c hc rfl
    exact absurd (hplain _ hc) (by decide)
  rw [Numeral.int?, hread, ← Numeral.int?, int?_of_digits hdigits, digits_plainDigit h.all, decimalValue]

/-- Without zeros in front, the number of digits bounds the number from below. -/
theorem Decimals.pow_le (h : Decimals text) (hlead : ∀ c ∈ text.toList.head?, digitValue c ≠ 0) {k : Nat}
    (hk : k < text.length) : 10 ^ k ≤ decimalValue text := by
  have hne : (text.toList.map digitValue).reverse ≠ [] := by simpa using h.ne_nil
  have hlast : (text.toList.map digitValue).reverse.getLast hne ≠ 0 := by
    rw [List.getLast_reverse, List.head_map]
    exact hlead _ (List.head?_eq_some_head h.ne_nil)
  have hpow := Nat.pow_length_le_mul_ofDigits (b := 8) hne hlast
  rw [List.length_reverse, List.length_map, String.length_toList] at hpow
  have hshort : 10 ^ (k + 1) ≤ 10 ^ text.length := Nat.pow_le_pow_right (by decide) hk
  rw [Nat.pow_succ] at hshort
  have hvalue : 10 ^ text.length ≤ 10 * decimalValue text := hpow
  omega

end Texts

end Snack.Numeral

/-! ### Integer literals -/

namespace Snack.Typing

open Snack.Numeral

section Literals

variable {text : String} {p : Pos}

theorem number_of_long (h : Decimals text) (hlong : maxDigits < text.length) :
    number text p = .error ⟨.integerTooLarge, p⟩ := by
  rw [number, h.isFloat, if_neg Bool.false_ne_true, if_pos hlong]

theorem number_of_short (h : Decimals text) (hshort : text.length ≤ maxDigits) :
    number text p = if decimalValue text < 2 ^ Number.maxBits then .ok (.int (decimalValue text))
      else .error ⟨.integerTooLarge, p⟩ := by
  rw [number, h.isFloat, if_neg Bool.false_ne_true, if_neg (Nat.not_lt.2 hshort), h.int?]
  simp only [Number.fits, Int.natAbs_natCast, decide_eq_true_eq, Nat.pow_eq]

/-- Without zeros in front, whatever is longer than the limit is too large. -/
theorem too_large_of_long (h : Decimals text) (hlead : ∀ c ∈ text.toList.head?, digitValue c ≠ 0)
    (hlong : maxDigits < text.length) : 2 ^ Number.maxBits ≤ decimalValue text :=
  Nat.le_trans (by decide +kernel : 2 ^ Number.maxBits ≤ 10 ^ maxDigits) (h.pow_le hlead hlong)

end Literals

/-- A text of decimal digits is accepted by what it stands for: below the 1024th power of two it is that
integer, and from there on it is refused as too large. This fails only for texts of more than 309 digits
that have a zero in front, since all texts of more than 309 digits are refused. -/
theorem integer_literal_by_value (text : String) (p : Pos) (h : Decimals text) :
    (text.length ≤ maxDigits ∨ (∀ c ∈ text.toList.head?, digitValue c ≠ 0) →
      number text p = if decimalValue text < 2 ^ Number.maxBits then .ok (.int (decimalValue text))
        else .error ⟨.integerTooLarge, p⟩) ∧
    (maxDigits < text.length → number text p = .error ⟨.integerTooLarge, p⟩) ∧
    Cause.integerTooLarge.category = .operand ∧
    Cause.integerTooLarge.message = "Integer literal too large" := by
  refine ⟨fun hvalue => ?_, number_of_long h, rfl, rfl⟩
  by_cases hshort : text.length ≤ maxDigits
  · exact number_of_short h hshort
  · have hlong := Nat.lt_of_not_le hshort
    have hlarge := too_large_of_long h (hvalue.resolve_left hshort) hlong
    rw [number_of_long h hlong, if_neg (Nat.not_lt.2 hlarge)]

/-- Seven is read with zeros in front, in another script than ours too, and 309 nines are too large. -/
theorem integer_literal_by_value_edge :
    Decimals (String.ofList ['٠', '٠', '٧']) ∧ number (String.ofList ['٠', '٠', '٧']) .start = .ok (.int 7) ∧
    Decimals (String.ofList (List.replicate 309 '9')) ∧
      number (String.ofList (List.replicate 309 '9')) .start = .error ⟨.integerTooLarge, .start⟩ := by
  have hseven : Decimals (String.ofList ['٠', '٠', '٧']) := decimals_ofList.2 (by decide +kernel)
  have hnines : Decimals (String.ofList (List.replicate 309 '9')) := decimals_ofList.2 (by decide +kernel)
  have hvalue : decimalValue (String.ofList ['٠', '٠', '٧']) = 7 :=
    (decimalValue_ofList _).trans (by decide +kernel)
  have hlarge : ¬decimalValue (String.ofList (List.replicate 309 '9')) < 2 ^ Number.maxBits := by
    rw [decimalValue_ofList]
    decide +kernel
  refine ⟨hseven, ?_, hnines, ?_⟩
  · have hshort : (String.ofList ['٠', '٠', '٧']).length ≤ maxDigits := by
      rw [String.length_ofList]
      decide
    rw [(integer_literal_by_value _ .start hseven).1 (.inl hshort), hvalue]
    exact if_pos (by decide +kernel)
  · have hshort : (String.ofList (List.replicate 309 '9')).length ≤ maxDigits := by
      rw [String.length_ofList, List.length_replicate]
      decide
    rw [(integer_literal_by_value _ .start hnines).1 (.inl hshort), if_neg hlarge]

/-- Seven behind 309 zeros is refused. -/
theorem seven_too_large_behind_zeros :
    decimalValue (String.ofList (List.replicate 309 '0' ++ ['7'])) = 7 ∧
      number (String.ofList (List.replicate 309 '0' ++ ['7'])) .start = .error ⟨.integerTooLarge, .start⟩ := by
  refine ⟨(decimalValue_ofList _).trans (by decide +kernel), number_of_long ?_ ?_⟩
  · exact decimals_ofList.2 (by decide +kernel)
  · rw [String.length_ofList, List.length_append, List.length_replicate]
    decide

end Snack.Typing
