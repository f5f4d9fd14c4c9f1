import Snack.Json.Basic
import Snack.Proofs.Text.After
import Snack.Proofs.Token.Longest
import Snack.Table

/-! A reader of the data format, and the grammar of its texts. White space may stand around every value and
every mark. A number is an integer unless it has a fraction or an exponent. Of two fields of one name the
later one counts, in the place of the earlier. Whatever is read is in the grammar. -/

namespace Snack.Json

open Numeral (isDigit inNumber Digits Fraction Exponent Spelling)

/-! ### White space -/

def isSpace (c : Char) : Bool := c == ' ' || c == '\t' || c == '\n' || c == '\r'

/-- Nothing but white space. -/
def Spaces (cs : List Char) : Prop := ∀ c ∈ cs, isSpace c = true

def skip (cs : List Char) : List Char := cs.dropWhile isSpace

theorem exists_skip (cs : List Char) : ∃ ws, Spaces ws ∧ cs = ws ++ skip cs :=
  ⟨cs.takeWhile isSpace, List.all_eq_true.1 List.all_takeWhile, List.takeWhile_append_dropWhile.symm⟩

/-- The reader only takes texts of that form from the front. -/
def Takes {α : Type} (item : List Char → Option (α × List Char)) (form : List Char → Prop) : Prop :=
  ∀ cs a rest, item cs = some (a, rest) → ∃ v, form v ∧ cs = v ++ rest

/-! ### Strings -/

def hexValue? (c : Char) : Option Nat :=
  if '0' ≤ c ∧ c ≤ '9' then some (c.toNat - '0'.toNat)
  else if 'a' ≤ c ∧ c ≤ 'f' then some (c.toNat - 'a'.toNat + 10)
  else if 'A' ≤ c ∧ c ≤ 'F' then some (c.toNat - 'A'.toNat + 10)
  else none

/-- The code unit that four hexadecimal digits write. -/
def codeUnit? (a b c d : Char) : Option Nat := do
  return 4096 * (← hexValue? a) + 256 * (← hexValue? b) + 16 * (← hexValue? c) + (← hexValue? d)

/-- What a character stands for behind a backslash. -/
def unescaped? : Char → Option Char
  | '"' => some '"'
  | '\\' => some '\\'
  | '/' => some '/'
  | 'b' => some '\x08'
  | 'f' => some '\x0c'
  | 'n' => some '\n'
  | 'r' => some '\r'
  | 't' => some '\t'
  | _ => none

/-- The first one of two code units that write one character. -/
def isHigh (u : Nat) : Bool := 0xd800 ≤ u && u < 0xdc00

/-- The second one of two code units that write one character. -/
def isLow (u : Nat) : Bool := 0xdc00 ≤ u && u < 0xe000

/-- The rest of a string behind its opening quote: what it stands for and what follows it. A code unit
that is half a character only counts with its other half. -/
def stringTail : List Char → Option (List Char × List Char)
  | '"' :: cs => some ([], cs)
  | '\\' :: 'u' :: a :: b :: c :: d :: cs =>
    match codeUnit? a b c d with
    | none => none
    | some u =>
      if isHigh u then
        match cs with
        | '\\' :: 'u' :: a :: b :: c :: d :: cs =>
          match codeUnit? a b c d with
          | none => none
          | some v =>
            if isLow v then
              (stringTail cs).map (Prod.map (Char.ofNat (0x10000 + 1024 * (u - 0xd800) + (v - 0xdc00)) :: ·) id)
            else none
        | _ => none
      else if isLow u then none
      else (stringTail cs).map (Prod.map (Char.ofNat u :: ·) id)
  | '\\' :: c :: cs =>
    match unescaped? c with
    | none => none
    | some d => (stringTail cs).map (Prod.map (d :: ·) id)
  | c :: cs => if c.toNat < 32 ∨ c = '\\' then none else (stringTail cs).map (Prod.map (c :: ·) id)
  | [] => none

def string? : List Char → Option (String × List Char)
  | '"' :: cs => (stringTail cs).map (Prod.map String.ofList id)
  | _ => none

/-- What may stand between quotes. -/
inductive StringBody : List Char → Prop where
  | nil : StringBody []
  | plain {c cs} (hc : 32 ≤ c.toNat) (hq : c ≠ '"') (hb : c ≠ '\\') (h : StringBody cs) : StringBody (c :: cs)
  | escape {c cs} (hc : c ∈ ['"', '\\', '/', 'b', 'f', 'n', 'r', 't']) (h : StringBody cs) :
      StringBody ('\\' :: c :: cs)
  | unit {a b c d cs} (hx : ∀ x ∈ [a, b, c, d], (hexValue? x).isSome = true) (h : StringBody cs) :
      StringBody ('\\' :: 'u' :: a :: b :: c :: d :: cs)

inductive IsString : List Char → Prop where
  | mk {body} (h : StringBody body) : IsString ('"' :: body ++ ['"'])

theorem mem_of_unescaped? {c d : Char} (h : unescaped? c = some d) :
    c ∈ ['"', '\\', '/', 'b', 'f', 'n', 'r', 't'] := by
  unfold unescaped? at h
  split at h <;> simp_all

theorem hex_of_codeUnit? {a b c d : Char} {u : Nat} (h : codeUnit? a b c d = some u) :
    ∀ x ∈ [a, b, c, d], (hexValue? x).isSome = true := by
  simp only [codeUnit?, Option.bind_eq_bind, Option.bind_eq_some_iff] at h
  obtain ⟨_, ha, _, hb, _, hc, _, hd, -⟩ := h
  simp [ha, hb, hc, hd]

theorem body_of_stringTail {cs s rest : List Char} (h : stringTail cs = some (s, rest)) :
    ∃ body, StringBody body ∧ cs = body ++ '"' :: rest := by
  -- a character more stands in front of what the rest gives
  have hmap {c : Char} {r : Option (List Char × List Char)} {s rest : List Char}
      (h : r.map (Prod.map (c :: ·) id) = some (s, rest)) : ∃ t, r = some (t, rest) := by
    obtain ⟨⟨t, rest⟩, hr, heq⟩ := Option.map_eq_some_iff.1 h
    cases heq
    exact ⟨t, hr⟩
  fun_induction stringTail cs generalizing s rest with
  | case1 cs =>
    cases h
    exact ⟨[], .nil, rfl⟩
  | case4 a b c d u hu _ a' b' c' d' cs v hv _ ih =>
    obtain ⟨t, ht⟩ := hmap h
    obtain ⟨body, hbody, rfl⟩ := ih ht
    exact ⟨_, .unit (hex_of_codeUnit? hu) (.unit (hex_of_codeUnit? hv) hbody), rfl⟩
  | case8 a b c d cs u hu _ _ ih =>
    obtain ⟨t, ht⟩ := hmap h
    obtain ⟨body, hbody, rfl⟩ := ih ht
    exact ⟨_, .unit (hex_of_codeUnit? hu) hbody, rfl⟩
  | case10 c cs _ d hd ih =>
    obtain ⟨t, ht⟩ := hmap h
    obtain ⟨body, hbody, rfl⟩ := ih ht
    exact ⟨_, .escape (mem_of_unescaped? hd) hbody, rfl⟩
  | case12 c cs hq _ _ hc ih =>
    obtain ⟨hc, hb⟩ := not_or.1 hc
    obtain ⟨t, ht⟩ := hmap h
    obtain ⟨body, hbody, rfl⟩ := ih ht
    exact ⟨_, .plain (Nat.le_of_not_lt hc) hq hb hbody, rfl⟩
  | case2 | case3 | case5 | case6 | case7 | case9 | case11 | case13 => cases h

theorem takes_string? : Takes string? IsString := by
  intro cs s rest h
  unfold string? at h
  split at h
  · obtain ⟨⟨t, rest'⟩, ht, heq⟩ := Option.map_eq_some_iff.1 h
    cases heq
    obtain ⟨body, hbody, rfl⟩ := body_of_stringTail ht
    exact ⟨_, .mk hbody, by simp⟩
  · cases h

/-! ### Numbers -/

/-- Whether there are digits and no needless zero in front of them. -/
def isWhole (cs : List Char) : Bool := cs == ['0'] || !cs.isEmpty && cs.all isDigit && cs.head? != some '0'

/-- Whether a text is one number without a sign. -/
def isUnsigned (cs : List Char) : Bool :=
  isWhole (cs.takeWhile isDigit) && Token.number? cs == some (cs, [])

def isNumber : List Char → Bool
  | '-' :: cs => isUnsigned cs
  | cs => isUnsigned cs

/-- What a number stands for. -/
def numeral? (cs : List Char) : Option Json :=
  if !isNumber cs then none
  else if Numeral.isFloat (.ofList cs) then (Numeral.float? (.ofList cs)).map float
  else (Numeral.int? (.ofList cs)).map int

def number? (cs : List Char) : Option (Json × List Char) :=
  (numeral? (cs.takeWhile inNumber)).map (·, cs.dropWhile inNumber)

/-- The digits before the point. -/
inductive Whole : List Char → Prop where
  | zero : Whole ['0']
  | digits {cs} (h : Digits cs) (hz : cs.head? ≠ some '0') : Whole cs

inductive Unsigned : List Char → Prop where
  | mk {whole frac exp} (hw : Whole whole) (hf : Fraction frac) (he : Exponent exp) :
      Unsigned (whole ++ (frac ++ exp))

inductive IsNumber : List Char → Prop where
  | pos {cs} (h : Unsigned cs) : IsNumber cs
  | neg {cs} (h : Unsigned cs) : IsNumber ('-' :: cs)

theorem Whole.isDigits {cs : List Char} (h : Whole cs) : Digits cs := by
  cases h with
  | zero => exact ⟨List.cons_ne_nil _ _, List.forall_mem_singleton.2 rfl⟩
  | digits h => exact h

theorem Unsigned.spelling {cs : List Char} (h : Unsigned cs) : Spelling cs := by
  obtain ⟨hw, hf, he⟩ := h
  exact .mk hw.isDigits hf he

theorem isWhole_iff {cs : List Char} : isWhole cs = true ↔ Whole cs := by
  constructor
  · intro h
    rcases Bool.or_eq_true _ _ ▸ h with h | h
    · rw [eq_of_beq h]
      exact .zero
    · simp only [Bool.and_eq_true, Bool.not_eq_true', List.isEmpty_eq_false_iff, List.all_eq_true, bne_iff_ne] at h
      exact .digits ⟨h.1.1, h.1.2⟩ h.2
  · intro h
    cases h with
    | zero => rfl
    | digits h hz =>
      have hall : cs.all isDigit = true := List.all_eq_true.2 h.all
      simp [isWhole, h.ne_nil, hall, hz]

theorem isUnsigned_iff {cs : List Char} : isUnsigned cs = true ↔ Unsigned cs := by
  rw [isUnsigned, Bool.and_eq_true, isWhole_iff, beq_iff_eq]
  constructor
  · rintro ⟨hw, hn⟩
    obtain ⟨exp, hexp, hcs⟩ := Token.number?_parts hn
    rw [hcs, List.append_assoc]
    exact .mk hw (Token.fraction_of_fraction _) (Token.exponent_of_exponent? hexp)
  · intro h
    refine ⟨?_, Token.number?_of_spelling h.spelling⟩
    obtain ⟨hw, hf, he⟩ := h
    exact (Token.takeWhile_of_parts hw.isDigits hf he).1.symm ▸ hw

/-- A number without a sign begins with a digit. -/
theorem Unsigned.not_minus {cs : List Char} (h : Unsigned cs) : ∀ c ∈ cs.head?, c ≠ '-' := by
  obtain ⟨hw, hf, he⟩ := h
  obtain ⟨d, ds, rfl⟩ := List.exists_cons_of_ne_nil hw.isDigits.ne_nil
  rintro c ⟨⟩ rfl
  exact absurd (hw.isDigits.all '-' List.mem_cons_self) (by decide)

theorem isNumber_iff {cs : List Char} : isNumber cs = true ↔ IsNumber cs := by
  constructor
  · intro h
    unfold isNumber at h
    split at h
    · exact .neg (isUnsigned_iff.1 h)
    · exact .pos (isUnsigned_iff.1 h)
  · intro h
    cases h with
    | pos h =>
      rw [isNumber, isUnsigned_iff.2 h]
      rintro ds rfl
      exact h.not_minus '-' rfl rfl
    | neg h => exact isUnsigned_iff.2 h

theorem takes_number? : Takes number? IsNumber := by
  intro cs j rest h
  obtain ⟨j', hj, heq⟩ := Option.map_eq_some_iff.1 h
  cases heq
  refine ⟨cs.takeWhile inNumber, ?_, List.takeWhile_append_dropWhile.symm⟩
  unfold numeral? at hj
  split at hj
  · cases hj
  · next h => exact isNumber_iff.1 (by simpa using h)

/-! ### Values -/

section

variable {α : Type} (item : List Char → Option (α × List Char)) (close : Char)

/-- The rest of a list behind an item: the items that follow, each behind a comma, and the closing mark. -/
def series : Nat → List Char → Option (List α × List Char)
  | 0, _ => none
  | n + 1, cs =>
    match Text.after? [close] (skip cs) with
    | some cs => some ([], cs)
    | none => do
      let (a, cs) ← item (skip (← Text.after? [','] (skip cs)))
      let (rest, cs) ← series n cs
      return (a :: rest, cs)

/-- The rest of a list behind its opening mark. -/
def listed (n : Nat) (cs : List Char) : Option (List α × List Char) :=
  match Text.after? [close] (skip cs) with
  | some cs => some ([], cs)
  | none => do
    let (a, cs) ← item (skip cs)
    let (rest, cs) ← series item close n cs
    return (a :: rest, cs)

end

/-- A name with its value. -/
def field (value : List Char → Option (Json × List Char)) (cs : List Char) :
    Option ((String × Json) × List Char) := do
  let (key, cs) ← string? cs
  let (j, cs) ← value (skip (← Text.after? [':'] (skip cs)))
  return ((key, j), cs)

/-- A value without parts. -/
def atom? (cs : List Char) : Option (Json × List Char) :=
  ((Text.after? ['n', 'u', 'l', 'l'] cs).map (null, ·))
  <|> ((Text.after? ['t', 'r', 'u', 'e'] cs).map (bool true, ·))
  <|> ((Text.after? ['f', 'a', 'l', 's', 'e'] cs).map (bool false, ·))
  <|> ((string? cs).map (Prod.map str id))
  <|> number? cs

/-- A value that nests at most so deep and has lists of at most so many items, and what follows it. -/
def value : Nat → List Char → Option (Json × List Char)
  | 0, _ => none
  | n + 1, '[' :: cs => (listed (value n) ']' n cs).map (Prod.map arr id)
  | n + 1, '\x7b' :: cs => (listed (field (value n)) '\x7d' n cs).map (Prod.map (fun fs => obj (fs.foldl Table.put [])) id)
  | _ + 1, cs => atom? cs

/-- The value that a text writes. -/
def read (text : String) : Option Json := do
  let (j, rest) ← value (text.length + 1) (skip text.toList)
  if (skip rest).isEmpty then some j else none

section

variable (item : List Char → Prop) (close : Char)

inductive Series : List Char → Prop where
  | close {ws} (hw : Spaces ws) : Series (ws ++ [close])
  | comma {ws ws' cs rest} (hw : Spaces ws) (hw' : Spaces ws') (h : item cs) (hr : Series rest) :
      Series (ws ++ ',' :: (ws' ++ (cs ++ rest)))

inductive Listed : List Char → Prop where
  | empty {ws} (hw : Spaces ws) : Listed (ws ++ [close])
  | items {ws cs rest} (hw : Spaces ws) (h : item cs) (hr : Series item close rest) : Listed (ws ++ (cs ++ rest))

end

inductive Field (value : List Char → Prop) : List Char → Prop where
  | mk {key ws ws' cs} (hk : IsString key) (hw : Spaces ws) (hw' : Spaces ws') (h : value cs) :
      Field value (key ++ (ws ++ ':' :: (ws' ++ cs)))

/-- The values of the data format. -/
inductive IsValue : List Char → Prop where
  | null : IsValue ['n', 'u', 'l', 'l']
  | true : IsValue ['t', 'r', 'u', 'e']
  | false : IsValue ['f', 'a', 'l', 's', 'e']
  | string {cs} (h : IsString cs) : IsValue cs
  | number {cs} (h : IsNumber cs) : IsValue cs
  | arr {cs} (h : Listed IsValue ']' cs) : IsValue ('[' :: cs)
  | obj {cs} (h : Listed (Field IsValue) '\x7d' cs) : IsValue ('\x7b' :: cs)

/-- The texts of the data format: one value, and white space around it. -/
inductive IsText : List Char → Prop where
  | mk {ws ws' cs} (hw : Spaces ws) (hw' : Spaces ws') (h : IsValue cs) : IsText (ws ++ (cs ++ ws'))

/-! ### What is read is in the grammar -/

theorem after?_mark {c : Char} {cs rest : List Char} (h : Text.after? [c] (skip cs) = some rest) :
    ∃ ws, Spaces ws ∧ cs = ws ++ c :: rest := by
  obtain ⟨ws, hws, hcs⟩ := exists_skip cs
  rw [Text.after?_eq_some.1 h] at hcs
  exact ⟨ws, hws, hcs⟩

section

variable {α : Type} {item : List Char → Option (α × List Char)} {form : List Char → Prop}

theorem takes_series (hitem : Takes item form) (close : Char) (n : Nat) :
    Takes (series item close n) (Series form close) := by
  intro cs as rest h
  induction n generalizing cs as with
  | zero => cases h
  | succ n ih =>
    rw [series] at h
    split at h
    · next hclose =>
      cases h
      obtain ⟨ws, hws, rfl⟩ := after?_mark hclose
      exact ⟨_, .close hws, by simp⟩
    · simp only [Option.bind_eq_bind, Option.bind_eq_some_iff] at h
      obtain ⟨cs', hcomma, ⟨a, cs''⟩, ha, ⟨as', rest'⟩, has, heq⟩ := h
      cases heq
      obtain ⟨ws, hws, rfl⟩ := after?_mark hcomma
      obtain ⟨ws', hws', hcs'⟩ := exists_skip cs'
      obtain ⟨v, hv, hskip⟩ := hitem _ _ _ ha
      obtain ⟨tail, htail, rfl⟩ := ih _ _ has
      rw [hcs', hskip]
      exact ⟨_, .comma hws hws' hv htail, by simp⟩

theorem takes_listed (hitem : Takes item form) (close : Char) (n : Nat) :
    Takes (listed item close n) (Listed form close) := by
  intro cs as rest h
  rw [listed] at h
  split at h
  · next hclose =>
    cases h
    obtain ⟨ws, hws, rfl⟩ := after?_mark hclose
    exact ⟨_, .empty hws, by simp⟩
  · simp only [Option.bind_eq_bind, Option.bind_eq_some_iff] at h
    obtain ⟨⟨a, cs'⟩, ha, ⟨as', rest'⟩, has, heq⟩ := h
    cases heq
    obtain ⟨ws, hws, hcs⟩ := exists_skip cs
    obtain ⟨v, hv, hskip⟩ := hitem _ _ _ ha
    obtain ⟨tail, htail, rfl⟩ := takes_series hitem close n _ _ _ has
    rw [hcs, hskip]
    exact ⟨_, .items hws hv htail, by simp⟩

end

theorem takes_field {value : List Char → Option (Json × List Char)} {form : List Char → Prop}
    (hvalue : Takes value form) : Takes (field value) (Field form) := by
  intro cs f rest h
  simp only [field, Option.bind_eq_bind, Option.bind_eq_some_iff] at h
  obtain ⟨⟨key, cs'⟩, hkey, cs'', hcolon, ⟨j, rest'⟩, hj, heq⟩ := h
  cases heq
  obtain ⟨q, hq, rfl⟩ := takes_string? _ _ _ hkey
  obtain ⟨ws, hws, rfl⟩ := after?_mark hcolon
  obtain ⟨ws', hws', hcs⟩ := exists_skip cs''
  obtain ⟨v, hv, hskip⟩ := hvalue _ _ _ hj
  rw [hcs, hskip]
  exact ⟨_, .mk hq hws hws' hv, by simp⟩

theorem takes_word {word : List Char} (h : IsValue word) (j : Json) :
    Takes (fun cs => (Text.after? word cs).map (j, ·)) IsValue := by
  intro cs j' rest hword
  obtain ⟨rest', hafter, heq⟩ := Option.map_eq_some_iff.1 hword
  cases heq
  exact ⟨word, h, Text.after?_eq_some.1 hafter⟩

theorem takes_atom? : Takes atom? IsValue := by
  intro cs j rest h
  simp only [atom?, Option.orElse_eq_orElse, Option.orElse_eq_or, Option.or_eq_some_iff] at h
  rcases h with h | ⟨-, h | ⟨-, h | ⟨-, h | ⟨-, h⟩⟩⟩⟩
  · exact takes_word .null null _ _ _ h
  · exact takes_word .true (bool true) _ _ _ h
  · exact takes_word .false (bool false) _ _ _ h
  · obtain ⟨⟨s, rest'⟩, hs, heq⟩ := Option.map_eq_some_iff.1 h
    cases heq
    obtain ⟨v, hv, rfl⟩ := takes_string? _ _ _ hs
    exact ⟨v, .string hv, rfl⟩
  · obtain ⟨v, hv, rfl⟩ := takes_number? _ _ _ h
    exact ⟨v, .number hv, rfl⟩

theorem takes_value (n : Nat) : Takes (value n) IsValue := by
  induction n with
  | zero =>
    intro cs j rest h
    cases h
  | succ n ih =>
    intro cs j rest h
    unfold value at h
    split at h
    · next heq => cases heq
    · next heq =>
      cases heq
      obtain ⟨⟨items, rest'⟩, hitems, heq⟩ := Option.map_eq_some_iff.1 h
      cases heq
      obtain ⟨v, hv, rfl⟩ := takes_listed ih ']' n _ _ _ hitems
      exact ⟨_, .arr hv, rfl⟩
    · next heq =>
      cases heq
      obtain ⟨⟨fields, rest'⟩, hfields, heq⟩ := Option.map_eq_some_iff.1 h
      cases heq
      obtain ⟨v, hv, rfl⟩ := takes_listed (takes_field ih) '\x7d' n _ _ _ hfields
      exact ⟨_, .obj hv, rfl⟩
    · exact takes_atom? _ _ _ h

/-- Only a text of the data format is read. -/
theorem isText_of_read {text : String} {j : Json} (h : read text = some j) : IsText text.toList := by
  simp only [read, Option.bind_eq_bind, Option.bind_eq_some_iff] at h
  obtain ⟨⟨j', rest⟩, hvalue, hend⟩ := h
  obtain ⟨ws, hws, htext⟩ := exists_skip text.toList
  obtain ⟨v, hv, hskip⟩ := takes_value _ _ _ _ hvalue
  obtain ⟨ws', hws', hrest⟩ := exists_skip rest
  split at hend
  · next hempty =>
    rw [List.isEmpty_iff.1 hempty, List.append_nil] at hrest
    rw [htext, hskip, hrest]
    exact .mk hws hws' hv
  · cases hend

end Snack.Json
