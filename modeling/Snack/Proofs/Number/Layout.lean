import Snack.Proofs.Number.Numeral
import Snack.Proofs.Number.Rounding

/-! The text of a finite float. However the digits are laid out, they stand for the decimal that was found, so
the text is read back as the float itself. -/

namespace Snack.Shortest

open Numeral (isDigit Digits Fraction Exponent Spelling Decimal)

/-! ### Digits -/

theorem digits_toDigits (n : Nat) : Digits (Nat.toDigits 10 n) where
  ne_nil := Nat.toDigits_ne_nil
  all _ h := Nat.isDigit_of_mem_toDigits (by decide) (by decide) h

theorem toList_toString (n : Nat) : (toString n).toList = Nat.toDigits 10 n := by
  rw [Nat.toString_eq_ofList_toDigits, String.toList_ofList]

theorem digits_zero : Digits ['0'] := ⟨List.cons_ne_nil _ _, List.forall_mem_singleton.2 rfl⟩

theorem isDigit_zeros {n : Nat} : ∀ c ∈ zeros n, isDigit c = true := by
  intro c hc
  rw [List.eq_of_mem_replicate hc]
  rfl

theorem value_toDigits (n : Nat) : Numeral.digits (Nat.toDigits 10 n) = n := Nat.ofDigitChars_ten_toDigits

theorem value_append (cs ds : List Char) :
    Numeral.digits (cs ++ ds) = 10 ^ ds.length * Numeral.digits cs + Numeral.digits ds :=
  (Nat.ofDigitChars_append 0).trans Nat.ofDigitChars_eq_ofDigitChars_zero

theorem value_zeros (n : Nat) : Numeral.digits (zeros n) = 0 :=
  Nat.ofDigitChars_replicate_zero

/-! ### Layouts -/

/-- The ways of writing `units * 10 ^ k`: zeros up to the point, the point between two digits, zeros behind
the point, or an exponent behind one or more digits. -/
inductive Laid (units : Nat) (k : Int) : List Char → Prop where
  | whole {n : Nat} (hk : k = n) : Laid units k (Nat.toDigits 10 units ++ zeros n ++ ['.', '0'])
  | point {as bs} (hds : Nat.toDigits 10 units = as ++ bs) (ha : as ≠ []) (hb : bs ≠ []) (hk : k = -bs.length) :
      Laid units k (as ++ '.' :: bs)
  | small {n : Nat} (hk : k = -(n + (Nat.toDigits 10 units).length)) :
      Laid units k ('0' :: '.' :: zeros n ++ Nat.toDigits 10 units)
  | digit {d} (hds : Nat.toDigits 10 units = [d]) : Laid units k (d :: 'e' :: exponentText k)
  | digits {d d' ds} (hds : Nat.toDigits 10 units = d :: d' :: ds) :
      Laid units k (d :: '.' :: d' :: ds ++ 'e' :: exponentText (k + ds.length + 1))

theorem laid_layout (units : Nat) (k : Int) : Laid units k (layout units k) := by
  have hne : Nat.toDigits 10 units ≠ [] := Nat.toDigits_ne_nil
  unfold layout
  rw [toList_toString]
  generalize hds : Nat.toDigits 10 units = ds at *
  dsimp only
  split
  · split
    · next hk =>
      rw [← hds]
      exact .whole (Int.toNat_of_nonneg hk).symm
    · next hk =>
      split
      · next hlead =>
        refine .point (hds.trans (List.take_append_drop _ ds).symm) ?_ ?_ ?_
        · simp [hne]
        · rw [ne_eq, List.drop_eq_nil_iff]
          omega
        · rw [List.length_drop]
          have := List.length_pos_of_ne_nil hne
          omega
      · next hlead =>
        rw [← hds] at *
        refine .small ?_
        omega
  · cases ds with
    | nil => exact absurd rfl hne
    | cons d ds =>
      cases ds with
      | nil =>
        have hlead : (([d].length : Nat) : Int) - 1 + k = k := by simp
        rw [hlead]
        exact .digit hds
      | cons d' ds =>
        have hlead : (((d :: d' :: ds).length : Nat) : Int) - 1 + k = k + ds.length + 1 := by
          rw [List.length_cons, List.length_cons]
          omega
        rw [hlead]
        exact .digits hds

/-! ### What the layouts stand for -/

theorem exists_exponentText (x : Int) : ∃ ds, Digits ds ∧ Numeral.digits ds = x.natAbs ∧
    exponentText x = (if x < 0 then '-' else '+') :: ds := by
  have hd := digits_toDigits x.natAbs
  refine ⟨if (toString x.natAbs).toList.length < 2 then '0' :: (toString x.natAbs).toList
    else (toString x.natAbs).toList, ?_, ?_, rfl⟩
  · rw [toList_toString]
    split
    · exact ⟨List.cons_ne_nil _ _, List.forall_mem_cons.2 ⟨rfl, hd.all⟩⟩
    · exact hd
  · rw [toList_toString]
    split
    · exact value_toDigits x.natAbs
    · exact value_toDigits x.natAbs

theorem exponent_exponentText (x : Int) :
    Exponent ('e' :: exponentText x) ∧ Numeral.exponent? ('e' :: exponentText x) = some x := by
  obtain ⟨ds, hd, hvalue, htext⟩ := exists_exponentText x
  rw [htext]
  by_cases hx : x < 0
  · have hexp : Exponent ('e' :: (['-'] ++ ds)) := .mark (by simp) (by simp) hd
    refine ⟨by simpa [hx] using hexp, ?_⟩
    simp [hx, Numeral.exponent?, Numeral.signed?, Numeral.splitSign, Numeral.digits?_eq hd, hvalue, abs_of_neg]
  · have hexp : Exponent ('e' :: (['+'] ++ ds)) := .mark (by simp) (by simp) hd
    refine ⟨by simpa [hx] using hexp, ?_⟩
    simp [hx, Numeral.exponent?, Numeral.signed?, Numeral.splitSign, Numeral.digits?_eq hd, hvalue]
    omega

/-- The parts of a spelling make a decimal. -/
theorem decimal?_of_parts {whole frac exp : List Char} {x : Int} (hw : Digits whole) (hf : Fraction frac)
    (he : Exponent exp) (hx : Numeral.exponent? exp = some x) : Numeral.decimal? (whole ++ (frac ++ exp)) =
      some ⟨Numeral.digits (whole ++ frac.tail), x - frac.tail.length⟩ := by
  obtain ⟨htake, hdrop⟩ := he.no_digit
  rw [Numeral.decimal?, (Numeral.takeWhile_digits hw).1, (Numeral.takeWhile_digits hw).2]
  cases hf with
  | none =>
    rw [List.nil_append, htake, hdrop, List.append_nil]
    -- an exponent does not start with a point
    cases he with
    | none => simp [hw.ne_nil, hx]
    | mark hc hs h => rcases Numeral.eq_of_mark hc with rfl | rfl <;> simp [hw.ne_nil, hx]
  | point h => simp [isDigit, Numeral.takeWhile_digits h, htake, hdrop, hw.ne_nil, hx]

/-- A spelling of `units * 10 ^ k` with a fraction or an exponent, which starts with the digits of the units or
with one zero. -/
structure Parts (units : Nat) (k : Int) (whole frac exp : List Char) : Prop where
  digits : Digits whole
  lead : whole = ['0'] ∨ whole.head? = (Nat.toDigits 10 units).head?
  fraction : Fraction frac
  exponent : Exponent exp
  marked : frac ≠ [] ∨ exp ≠ []
  value : ∃ x, Numeral.exponent? exp = some x ∧
    Numeral.digits (whole ++ frac.tail) * (10 : ℚ) ^ (x - frac.tail.length) = units * 10 ^ k

theorem parts_of_laid {units : Nat} {k : Int} {cs : List Char} (h : Laid units k cs) :
    ∃ whole frac exp, cs = whole ++ (frac ++ exp) ∧ Parts units k whole frac exp := by
  have hd := digits_toDigits units
  have hvalue := value_toDigits units
  cases h with
  | @whole n hk =>
    refine ⟨Nat.toDigits 10 units ++ zeros n, ['.', '0'], [], rfl, ?_, .inr ?_,
      .point digits_zero, .none, .inl (List.cons_ne_nil _ _), 0, rfl, ?_⟩
    · exact ⟨List.append_ne_nil_of_left_ne_nil hd.ne_nil _, List.forall_mem_append.2 ⟨hd.all, isDigit_zeros⟩⟩
    · rw [List.head?_append, List.head?_eq_some_head hd.ne_nil, Option.some_or]
    · have hzero : Numeral.digits ['0'] = 0 := rfl
      rw [List.tail_cons, value_append, value_append, value_zeros, hvalue, hzero, hk, zeros, List.length_replicate]
      push_cast
      simp
      ring
  | @point as bs hds ha hb hk =>
    have hall := List.forall_mem_append.1 (hds ▸ hd.all)
    refine ⟨as, '.' :: bs, [], by simp, ⟨ha, hall.1⟩, .inr ?_, .point ⟨hb, hall.2⟩, .none,
      .inl (List.cons_ne_nil _ _), 0, rfl, ?_⟩
    · rw [hds, List.head?_append, List.head?_eq_some_head ha, Option.some_or]
    · rw [List.tail_cons, ← hds, hvalue, hk, zero_sub]
  | @small n hk =>
    refine ⟨['0'], '.' :: (zeros n ++ Nat.toDigits 10 units), [], by simp, digits_zero, .inl rfl,
      .point ⟨?_, ?_⟩, .none, .inl (List.cons_ne_nil _ _), 0, rfl, ?_⟩
    · exact List.append_ne_nil_of_right_ne_nil _ hd.ne_nil
    · exact List.forall_mem_append.2 ⟨isDigit_zeros, hd.all⟩
    · have hzero : Numeral.digits ['0'] = 0 := rfl
      rw [List.tail_cons, value_append, value_append, value_zeros, hvalue, hzero, hk, zeros, List.length_append,
        List.length_replicate]
      simp
  | @digit d hds =>
    obtain ⟨hexp, hpower⟩ := exponent_exponentText k
    refine ⟨[d], [], 'e' :: exponentText k, rfl, hds ▸ hd, .inr (by rw [hds]), .none, hexp,
      .inr (List.cons_ne_nil _ _), k, hpower, ?_⟩
    rw [List.tail_nil, List.append_nil, ← hds, hvalue]
    simp
  | @digits d d' ds hds =>
    obtain ⟨hexp, hpower⟩ := exponent_exponentText (k + ds.length + 1)
    have hall := List.forall_mem_cons.1 (hds ▸ hd.all)
    refine ⟨[d], '.' :: d' :: ds, 'e' :: exponentText (k + ds.length + 1), by simp,
      ⟨List.cons_ne_nil _ _, List.forall_mem_singleton.2 hall.1⟩, .inr (by rw [hds]; rfl),
      .point ⟨List.cons_ne_nil _ _, hall.2⟩, hexp, .inl (List.cons_ne_nil _ _), _, hpower, ?_⟩
    rw [List.tail_cons, List.singleton_append, ← hds, hvalue]
    congr 2
    simp

theorem Parts.spelling {units : Nat} {k : Int} {whole frac exp : List Char} (h : Parts units k whole frac exp) :
    Spelling (whole ++ (frac ++ exp)) := .mk h.digits h.fraction h.exponent

theorem spelling_layout (units : Nat) (k : Int) : Spelling (layout units k) := by
  obtain ⟨whole, frac, exp, hlayout, hparts⟩ := parts_of_laid (laid_layout units k)
  rw [hlayout]
  exact hparts.spelling

/-! ### Reading back -/

/-- Neither infinite nor the float that is no number. -/
inductive IsFinite (x : Float) : Prop where
  | zero {s} (h : Number.unpack x = .zero s)
  | finite {s m e hm} (h : Number.unpack x = .finite s m e hm)

def withSign : Float.Model.UnpackedFloat.Sign → List Char → List Char
  | .positive, cs => cs
  | .negative, cs => '-' :: cs

/-- A spelling is not one of the names of floats that are not finite. -/
theorem unsigned?_of_spelling {cs : List Char} (h : Spelling cs) :
    Numeral.unsigned? cs = (Numeral.decimal? cs).map Decimal.toFloat := by
  obtain ⟨d, ds, rfl, hd⟩ := h.cons
  have hname {c : Char} {name : List Char} (hc : isDigit c = false) (tail : List Char) :
      (d :: tail == c :: name) = false := by
    rw [beq_eq_false_iff_ne]
    intro heq
    rw [(List.cons.inj heq).1, hc] at hd
    cases hd
  rw [Numeral.unsigned?, hname rfl, hname rfl]
  rfl

theorem float?_withSign {cs : List Char} {y : Float} (h : Spelling cs) (hy : Numeral.unsigned? cs = some y)
    (s : Float.Model.UnpackedFloat.Sign) : Numeral.float? (.ofList (withSign s cs)) =
      some (match s with | .positive => y | .negative => -y) := by
  cases s with
  | positive =>
    have hsplit : Numeral.splitSign cs = (false, cs) := by
      obtain ⟨hw, -, -⟩ := h
      exact Numeral.splitSign_of_digits hw
    simp [withSign, Numeral.float?, Numeral.plain?_eq h.inNumber, hsplit, hy]
  | negative =>
    have hall : ∀ c ∈ '-' :: cs, Numeral.inNumber c = true := List.forall_mem_cons.2 ⟨rfl, h.inNumber⟩
    rw [withSign, Numeral.float?, Numeral.plain?_eq hall]
    simp only [Option.bind_eq_bind, Option.bind_some, Numeral.splitSign, hy]
    rfl

/-- The text of a finite float is a sign or none, and a layout. -/
theorem text_finite {x : Float} {s : Float.Model.UnpackedFloat.Sign} {m : Nat} {e : Int} {hm : 0 < m}
    (h : Number.unpack x = .finite s m e hm) :
    text x = .ofList (withSign s (layout (digits m e).1 (digits m e).2)) := by
  unfold text
  rw [h]
  cases s <;> rfl

theorem text_zero {x : Float} {s : Float.Model.UnpackedFloat.Sign} (h : Number.unpack x = .zero s) :
    text x = .ofList (withSign s ['0', '.', '0']) := by
  unfold text
  rw [h]
  cases s <;> rfl

/-- The text of a finite float is read as the float. -/
theorem float?_text {x : Float} (h : IsFinite x) : Numeral.float? (text x) = some x := by
  have hpack := ofModel_pack_unpack x
  cases h with
  | @zero s h =>
    have hspelling : Spelling ['0', '.', '0'] := .mk digits_zero (.point digits_zero) .none
    have hy : Numeral.unsigned? ['0', '.', '0'] = some (.ofModel (.pack (.zero .positive))) := rfl
    rw [text_zero h, float?_withSign hspelling hy]
    rw [h] at hpack
    cases s with
    | positive => rw [← hpack]
    | negative =>
      rw [← hpack]
      rfl
  | @finite s m e hm h =>
    have hfits := fits_of_unpack h
    obtain ⟨whole, frac, exp, hlayout, hparts⟩ := parts_of_laid (laid_layout (digits m e).1 (digits m e).2)
    obtain ⟨k, hk, hvalue⟩ := hparts.value
    have hholds := holds_digits hfits
    rw [← hvalue] at hholds
    have hy : Numeral.unsigned? (layout (digits m e).1 (digits m e).2) =
        some (.ofModel (.pack (.finite .positive m e hfits.pos))) := by
      rw [hlayout, unsigned?_of_spelling hparts.spelling,
        decimal?_of_parts hparts.digits hparts.fraction hparts.exponent hk, Option.map_some, Decimal.toFloat,
        Float.Model.ofScientific, ofScientific_of_holds hfits hholds]
    rw [text_finite h, float?_withSign (hlayout ▸ hparts.spelling) hy]
    rw [h] at hpack
    cases s with
    | positive => rw [← hpack]
    | negative =>
      rw [← hpack]
      exact congrArg some (neg_ofModel hfits)

end Snack.Shortest
