import Snack.Number.Numeral

/-! Spellings of numbers as a source text has them: digits, then a fraction, then an exponent. Each of them
is read, as a float if it has a fraction or an exponent and as an integer if it has neither. -/

namespace Snack.Numeral

/-! ### Spellings -/

/-- Some digits. -/
structure Digits (cs : List Char) : Prop where
  ne_nil : cs ≠ []
  all : ∀ c ∈ cs, isDigit c = true

inductive Fraction : List Char → Prop where
  | none : Fraction []
  | point {ds} (h : Digits ds) : Fraction ('.' :: ds)

inductive Exponent : List Char → Prop where
  | none : Exponent []
  | mark {c sign ds} (hc : c ∈ ['e', 'E']) (hs : sign ∈ [[], ['+'], ['-']]) (h : Digits ds) :
      Exponent (c :: (sign ++ ds))

/-- A number without a sign. -/
inductive Spelling : List Char → Prop where
  | mk {whole frac exp} (hw : Digits whole) (hf : Fraction frac) (he : Exponent exp) :
      Spelling (whole ++ (frac ++ exp))

/-- A text that is read as the number it looks like, which is not negative if it is an integer. -/
def Readable (text : String) : Prop :=
  if isFloat text then (float? text).isSome = true else ∃ n : Nat, int? text = some (n : Int)

/-! ### Characters -/

/-- The characters of spellings. -/
def inNumber (c : Char) : Bool := isDigit c || ['.', 'e', 'E', '+', '-'].contains c

theorem toNat_of_isDigit {c : Char} (h : isDigit c = true) : 48 ≤ c.toNat ∧ c.toNat ≤ 57 := by
  simp only [isDigit, Bool.and_eq_true, decide_eq_true_eq] at h
  exact h

theorem plainDigit_of_isDigit {c : Char} (h : isDigit c = true) : Text.plainDigit c = c := by
  have hc := toNat_of_isDigit h
  have hfind : Text.zeros.find?
    (fun z => decide (z ≤ c.toNat) && decide (c.toNat < z + 10)) = some 0x30 := by
    rw [Text.zeros, List.find?_cons_of_pos]
    simp only [Bool.and_eq_true, decide_eq_true_eq]
    omega
  rw [Text.plainDigit, Text.digit?, hfind]
  have hsum : 48 + (c.toNat - 0x30) = c.toNat := by omega
  simp only [Option.map_some, hsum, Char.ofNat_toNat]

theorem isPadding_of_isDigit {c : Char} (h : isDigit c = true) : isPadding c = false := by
  have hc := toNat_of_isDigit h
  have hblank : Text.isBlank c = false := by
    simp [Text.isBlank, Text.blankRanges]
    omega
  rw [isPadding, hblank, Bool.false_and]

/-- Nothing in a spelling is padding, a digit of another script or an underscore. -/
theorem plain_of_inNumber {c : Char} (h : inNumber c = true) :
    isPadding c = false ∧ Text.plainDigit c = c ∧ c ≠ '_' := by
  rcases Bool.or_eq_true _ _ ▸ h with hd | hc
  · refine ⟨isPadding_of_isDigit hd, plainDigit_of_isDigit hd, ?_⟩
    rintro rfl
    exact absurd hd (by decide)
  · have hmarks : c = '.' ∨ c = 'e' ∨ c = 'E' ∨ c = '+' ∨ c = '-' := by simpa using hc
    rcases hmarks with rfl | rfl | rfl | rfl | rfl <;> decide

theorem eq_of_mark {c : Char} (h : c ∈ ['e', 'E']) : c = 'e' ∨ c = 'E' := by
  simpa using h

theorem eq_of_sign {cs : List Char} (h : cs ∈ [[], ['+'], ['-']]) :
    cs = [] ∨ cs = ['+'] ∨ cs = ['-'] := by
  simpa using h

theorem Digits.inNumber {cs : List Char} (h : Digits cs) : ∀ c ∈ cs, inNumber c = true := by
  intro c hc
  rw [Numeral.inNumber, h.all c hc, Bool.true_or]

theorem Spelling.inNumber {cs : List Char} (h : Spelling cs) : ∀ c ∈ cs, inNumber c = true := by
  obtain ⟨hw, hf, he⟩ := h
  refine List.forall_mem_append.2 ⟨hw.inNumber, List.forall_mem_append.2 ⟨?_, ?_⟩⟩
  · cases hf with
    | none => simp
    | point h => exact List.forall_mem_cons.2 ⟨rfl, h.inNumber⟩
  · cases he with
    | none => simp
    | mark hc hs h =>
      refine List.forall_mem_cons.2 ⟨?_, List.forall_mem_append.2 ⟨?_, h.inNumber⟩⟩
      · rcases eq_of_mark hc with rfl | rfl <;> rfl
      · rcases eq_of_sign hs with rfl | rfl | rfl <;> simp [Numeral.inNumber]

theorem Digits.spelling {cs : List Char} (h : Digits cs) : Spelling cs := by
  simpa using Spelling.mk h .none .none

theorem Spelling.cons {cs : List Char} (h : Spelling cs) : ∃ c ds, cs = c :: ds ∧ isDigit c = true := by
  obtain ⟨hw, -, -⟩ := h
  obtain ⟨c, ds, rfl⟩ := List.exists_cons_of_ne_nil hw.ne_nil
  exact ⟨c, _, List.cons_append, hw.all c List.mem_cons_self⟩

/-! ### Plain spellings -/

theorem dropWhile_isPadding {cs : List Char} (h : ∀ c ∈ cs, isPadding c = false) :
    cs.dropWhile isPadding = cs := by
  cases cs with
  | nil => rfl
  | cons c cs => rw [List.dropWhile_cons_of_neg (by simp [h c List.mem_cons_self])]

theorem trim_eq {cs : List Char} (h : ∀ c ∈ cs, isPadding c = false) : trim cs = cs := by
  rw [trim, dropWhile_isPadding h, dropWhile_isPadding fun c hc => h c (List.mem_reverse.1 hc),
    List.reverse_reverse]

theorem ungrouped?_eq {cs : List Char} (h : ∀ c ∈ cs, c ≠ '_') (b : Bool) :
    ungrouped? b cs = some cs := by
  induction cs generalizing b with
  | nil => rfl
  | cons c cs ih =>
    obtain ⟨hc, hcs⟩ := List.forall_mem_cons.1 h
    unfold ungrouped?
    split
    · next heq => cases heq
    · next heq =>
      cases heq
      exact absurd rfl hc
    · next heq =>
      cases heq
      exact absurd rfl hc
    · next heq =>
      cases heq
      rw [ih hcs, Option.map_some]

theorem plain?_eq {cs : List Char} (h : ∀ c ∈ cs, inNumber c = true) :
    plain? (String.ofList cs) = some cs := by
  have hmap : cs.map Text.plainDigit = cs := by
    rw [List.map_congr_left fun c hc => (plain_of_inNumber (h c hc)).2.1, List.map_id']
  rw [plain?, String.toList_ofList, trim_eq fun c hc => (plain_of_inNumber (h c hc)).1, hmap,
    ungrouped?_eq fun c hc => (plain_of_inNumber (h c hc)).2.2]

/-! ### Values -/

/-- Digits have no sign in front. -/
theorem splitSign_of_digits {ds cs : List Char} (h : Digits ds) :
    splitSign (ds ++ cs) = (false, ds ++ cs) := by
  obtain ⟨hne, hall⟩ := h
  cases ds with
  | nil => exact absurd rfl hne
  | cons d ds =>
    have hd := hall d List.mem_cons_self
    rw [List.cons_append]
    unfold splitSign
    split
    · next heq =>
      cases heq
      exact absurd hd (by decide)
    · next heq =>
      cases heq
      exact absurd hd (by decide)
    · rfl

theorem digits?_eq {ds : List Char} (h : Digits ds) : digits? ds = some (digits ds) := by
  rw [digits?, if_pos ⟨h.ne_nil, List.all_eq_true.2 h.all⟩]

theorem signed?_isSome {sign ds : List Char} (hs : sign ∈ [[], ['+'], ['-']]) (h : Digits ds) :
    (signed? (sign ++ ds)).isSome = true := by
  have hsplit : (splitSign (sign ++ ds)).2 = ds := by
    rcases eq_of_sign hs with rfl | rfl | rfl
    · have hnone : splitSign (ds ++ []) = (false, ds ++ []) := splitSign_of_digits h
      rw [List.append_nil] at hnone
      rw [List.nil_append, hnone]
    · rfl
    · rfl
  rw [signed?, Option.isSome_map, hsplit, digits?_eq h]
  rfl

theorem exponent?_isSome {exp : List Char} (h : Exponent exp) : (exponent? exp).isSome = true := by
  cases h with
  | none => rfl
  | mark hc hs h =>
    rcases eq_of_mark hc with rfl | rfl <;> exact signed?_isSome hs h

/-- An exponent does not start with a digit. -/
theorem Exponent.no_digit {exp : List Char} (h : Exponent exp) :
    exp.takeWhile isDigit = [] ∧ exp.dropWhile isDigit = exp := by
  cases h with
  | none => exact ⟨rfl, rfl⟩
  | mark hc hs h =>
    rcases eq_of_mark hc with rfl | rfl <;> exact ⟨rfl, rfl⟩

theorem takeWhile_digits {ds cs : List Char} (h : Digits ds) :
    (ds ++ cs).takeWhile isDigit = ds ++ cs.takeWhile isDigit ∧
    (ds ++ cs).dropWhile isDigit = cs.dropWhile isDigit :=
  ⟨List.takeWhile_append_of_pos h.all, List.dropWhile_append_of_pos h.all⟩

theorem decimal?_isSome {cs : List Char} (h : Spelling cs) : (decimal? cs).isSome = true := by
  obtain ⟨hw, hf, he⟩ := h
  obtain ⟨htake, hdrop⟩ := he.no_digit
  rw [decimal?, (takeWhile_digits hw).1, (takeWhile_digits hw).2]
  cases hf with
  | none =>
    rw [List.nil_append, htake, hdrop, List.append_nil]
    -- an exponent does not start with a point
    cases he with
    | none => simp [hw.ne_nil, exponent?]
    | mark hc hs h =>
      have hexp := exponent?_isSome (.mark hc hs h)
      rcases eq_of_mark hc with rfl | rfl <;> simp [hw.ne_nil, hexp]
  | point h =>
    simp [isDigit, takeWhile_digits h, htake, hdrop, hw.ne_nil, exponent?_isSome he]

theorem float?_isSome {cs : List Char} (h : Spelling cs) :
    (float? (String.ofList cs)).isSome = true := by
  have hplain := plain?_eq h.inNumber
  have hdecimal := decimal?_isSome h
  have hsplit : splitSign cs = (false, cs) := by
    obtain ⟨hw, -, -⟩ := h
    exact splitSign_of_digits hw
  have hunsigned : (unsigned? cs).isSome = true := by
    unfold unsigned?
    split
    · rfl
    · split
      · rfl
      · rw [Option.isSome_map, hdecimal]
  obtain ⟨x, hx⟩ := Option.isSome_iff_exists.1 hunsigned
  simp [float?, hplain, hsplit, hx]

/-- A spelling without a point and an exponent is digits only. -/
theorem Spelling.digits {cs : List Char} (h : Spelling cs)
    (hf : isFloat (String.ofList cs) = false) : Digits cs := by
  rw [isFloat, String.toList_ofList, List.any_eq_false] at hf
  obtain ⟨hw, hfrac, he⟩ := h
  cases hfrac with
  | point => exact absurd rfl (hf '.' (by simp))
  | none =>
    cases he with
    | none => simpa using hw
    | @mark c sign ds hc _ _ =>
      have hmark : (c == '.' || c == 'e' || c == 'E') = true := by
        rcases eq_of_mark hc with rfl | rfl <;> rfl
      exact absurd hmark (hf c (by simp))

theorem int?_of_digits {cs : List Char} (h : Digits cs) :
    int? (String.ofList cs) = some (Numeral.digits cs : Int) := by
  have hsplit : splitSign (cs ++ []) = (false, cs ++ []) := splitSign_of_digits h
  rw [List.append_nil] at hsplit
  rw [int?, plain?_eq h.inNumber, Option.bind_some, signed?, hsplit]
  simp [digits?_eq h]

theorem readable_of_spelling {cs : List Char} (h : Spelling cs) : Readable (String.ofList cs) := by
  unfold Readable
  split
  · exact float?_isSome h
  · next hf => exact ⟨_, int?_of_digits (h.digits (by simpa using hf))⟩

end Snack.Numeral
