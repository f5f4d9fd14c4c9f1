import Snack.Proofs.Number.Numeral
import Snack.Token.Scan

/-! The tokens of a source text. Their list ends with the token that marks the end, every number in it is
the spelling of a number, every emoji of a type is that of a primitive type, and every name is a word. -/

namespace Snack.Token

open Numeral (Digits Spelling)

/-- A text of letters and digits. -/
def Word (s : String) : Prop := ∀ c ∈ s.toList, isWordChar c = true

instance (s : String) : Decidable (Word s) :=
  inferInstanceAs (Decidable (∀ c ∈ s.toList, isWordChar c = true))

/-- A token whose text is what its kind says. -/
structure Sane (t : Token) : Prop where
  number : t.kind = .number → Numeral.Readable t.text
  type : t.kind = .type → (Prim.ofText? t.text).isSome = true
  ident : t.kind = .ident → Word t.text

/-- A token of another kind. -/
theorem Sane.of_kind {t : Token} (hn : t.kind ≠ .number) (ht : t.kind ≠ .type) (hi : t.kind ≠ .ident) :
    Sane t :=
  ⟨fun h => absurd h hn, fun h => absurd h ht, fun h => absurd h hi⟩

/-! ### Numbers -/

theorem digits_takeWhile {d : Char} {cs : List Char} (h : isDigit d = true) :
    Digits (d :: cs.takeWhile isDigit) where
  ne_nil := List.cons_ne_nil _ _
  all := List.forall_mem_cons.2 ⟨h, List.all_eq_true.1 List.all_takeWhile⟩

theorem fraction_of_fraction (cs : List Char) : Numeral.Fraction (fraction cs).1 := by
  unfold fraction
  split
  · split
    · next h => exact .point (digits_takeWhile h)
    · exact .none
  · exact .none

theorem exponentSign_mem (cs : List Char) : (exponentSign cs).1 ∈ [[], ['+'], ['-']] := by
  unfold exponentSign
  split
  · split
    · next h =>
      simp only [Bool.or_eq_true, beq_iff_eq] at h
      rcases h with rfl | rfl <;> simp
    · simp
  · simp

theorem exponent_of_exponent? {cs exp rest : List Char} (h : exponent? cs = some (exp, rest)) :
    Numeral.Exponent exp := by
  unfold exponent? at h
  split at h
  · next c cs =>
    split at h
    · next hc =>
      split at h
      next sign rest' hsign =>
      dsimp only at h
      split at h
      · cases h
      · next hne =>
        cases h
        have hmem := exponentSign_mem cs
        rw [hsign] at hmem
        rw [List.cons_append]
        refine .mark ?_ hmem ⟨by simpa using hne, List.all_eq_true.1 List.all_takeWhile⟩
        simpa using hc
    · cases h
      exact .none
  · cases h
    exact .none

theorem spelling_of_number? {c : Char} {cs lexeme rest : List Char} (hc : isDigit c = true)
    (h : number? (c :: cs) = some (lexeme, rest)) : Spelling lexeme := by
  obtain ⟨⟨exp, rest'⟩, hexp, heq⟩ := Option.map_eq_some_iff.1 h
  cases heq
  rw [List.append_assoc]
  refine .mk ?_ (fraction_of_fraction _) (exponent_of_exponent? hexp)
  rw [List.takeWhile_cons_of_pos hc]
  exact digits_takeWhile hc

/-! ### Pieces -/

theorem ofText?_of_ofSymbol? {c : Char} (h : (Prim.ofSymbol? c).isSome = true) :
    (Prim.ofText? c.toString).isSome = true := by
  obtain ⟨p, hp⟩ := Option.isSome_iff_exists.1 h
  have hsymbol : p.symbol = c := by simpa using List.find?_some hp
  rw [Prim.ofText?, List.find?_isSome]
  exact ⟨p, List.mem_of_find?_eq_some hp, by simp [hsymbol]⟩

/-- The text of an emoji token is its emoji. -/
theorem emoji_eq {kind : Kind} {p q : Pos} {c : Char} {rest rest' : List Char} {t : Token}
    (h : Piece.emoji kind p c rest = .token t q rest') : t = ⟨kind, c.toString, p⟩ := by
  unfold Piece.emoji at h
  split at h
  · split at h <;> cases h <;> rfl
  · cases h
    rfl

/-- The tokens that a text `c :: cs` at `p` can start with. -/
inductive Opens (p : Pos) (c : Char) (cs : List Char) : Token → Prop where
  | number {lexeme rest} (hc : isDigit c = true) (h : number? (c :: cs) = some (lexeme, rest)) :
      Opens p c cs ⟨.number, .ofList lexeme, p⟩
  | string (value : List Char) : Opens p c cs ⟨.string, .ofList value, p⟩
  | word (hd : isDigit c = false) (h : isLetter c = true) :
      Opens p c cs ⟨if (c :: cs.takeWhile isWordChar) == ['i', 'n'] then .keyword else .ident,
        .ofList (c :: cs.takeWhile isWordChar), p⟩
  | keyword (hd : isDigit c = false) (hl : isLetter c = false) (h : Keyword.symbols.contains c = true) :
      Opens p c cs ⟨.keyword, c.toString, p⟩
  | type (hd : isDigit c = false) (hl : isLetter c = false) (hk : Keyword.symbols.contains c = false)
      (h : (Prim.ofSymbol? c).isSome = true) : Opens p c cs ⟨.type, c.toString, p⟩
  | operator {op rest} (hd : isDigit c = false) (hl : isLetter c = false)
      (hk : Keyword.symbols.contains c = false) (ht : (Prim.ofSymbol? c).isSome = false)
      (h : operator? (c :: cs) = some (op, rest)) : Opens p c cs ⟨.op, .ofList op, p⟩

theorem opens_of_piece {p q : Pos} {c : Char} {cs rest : List Char} {t : Token}
    (h : piece p c cs = .ok (.token t q rest)) : Opens p c cs t := by
  unfold piece at h
  split at h
  · cases h
  split at h
  · cases h
  split at h
  · split at h <;> cases h
  split at h
  · next hd =>
    split at h
    · next hn =>
      cases h
      exact .number hd hn
    · cases h
  split at h
  · cases hs : stringTail p (p.after c) cs with
    | error e =>
      rw [hs] at h
      cases h
    | ok v =>
      rw [hs] at h
      cases h
      exact .string _
  next hd _ =>
  rw [Bool.not_eq_true] at hd
  split at h
  · next hl =>
    cases h
    exact .word hd hl
  next hl =>
  rw [Bool.not_eq_true] at hl
  split at h
  · next hk =>
    cases emoji_eq (Except.ok.inj h)
    exact .keyword hd hl hk
  next hk =>
  rw [Bool.not_eq_true] at hk
  split at h
  · next ht =>
    cases emoji_eq (Except.ok.inj h)
    exact .type hd hl hk ht
  next ht =>
  rw [Bool.not_eq_true] at ht
  split at h
  · next ho =>
    cases h
    exact .operator hd hl hk ht ho
  · cases h

theorem word_takeWhile {c : Char} (h : isLetter c = true) (cs : List Char) :
    Word (.ofList (c :: cs.takeWhile isWordChar)) := by
  rw [Word, String.toList_ofList]
  refine List.forall_mem_cons.2 ⟨?_, List.all_eq_true.1 List.all_takeWhile⟩
  rw [isWordChar, h, Bool.true_or]

theorem sane_of_opens {p : Pos} {c : Char} {cs : List Char} {t : Token} (h : Opens p c cs t) :
    Sane t := by
  cases h with
  | number hd hn =>
    exact ⟨fun _ => Numeral.readable_of_spelling (spelling_of_number? hd hn), fun h => (nomatch h),
      fun h => (nomatch h)⟩
  | word hd hl =>
    refine ⟨fun h => ?_, fun h => ?_, fun _ => word_takeWhile hl cs⟩
    · have h : (if _ then _ else _) = _ := h
      split at h <;> cases h
    · have h : (if _ then _ else _) = _ := h
      split at h <;> cases h
  | type _ _ _ ht => exact ⟨fun h => (nomatch h), fun _ => ofText?_of_ofSymbol? ht, fun h => (nomatch h)⟩
  | string | keyword | operator => exact .of_kind (by simp) (by simp) (by simp)

/-! ### Whole texts -/

/-- The tokens of a text are those that its pieces start with, and one that marks the end. -/
theorem tokens_of_scanFrom {n : Nat} {p : Pos} {cs : List Char} {ts : List Token}
    (h : scanFrom n p cs = .ok ts) :
    ∃ body q, ts = body ++ [endAt q] ∧ ∀ t ∈ body, ∃ p c cs, Opens p c cs t := by
  induction n generalizing p cs ts with
  | zero => cases cs <;> cases h <;> exact ⟨[], p, rfl, by simp⟩
  | succ n ih =>
    cases cs with
    | nil =>
      cases h
      exact ⟨[], p, rfl, by simp⟩
    | cons c cs =>
      rw [scanFrom] at h
      split at h
      · cases h
      · exact ih h
      · next t q rest hpiece =>
        cases hrest : scanFrom n q rest with
        | error e =>
          rw [hrest] at h
          cases h
        | ok us =>
          rw [hrest] at h
          cases h
          obtain ⟨body, q', rfl, hbody⟩ := ih hrest
          exact ⟨t :: body, q', rfl,
            List.forall_mem_cons.2 ⟨⟨p, c, cs, opens_of_piece hpiece⟩, hbody⟩⟩

end Snack.Token
