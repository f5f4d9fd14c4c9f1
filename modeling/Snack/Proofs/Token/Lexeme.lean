import Snack.Proofs.Token.Scan

/-! Tokens without their places. In the tokens of a source text the kind of each one shows in its text,
unless it is a string literal, so that a token which is told by its text is known in full. -/

namespace Snack

/-- A token without its place. -/
structure Lexeme where
  kind : Token.Kind
  text : String
  deriving DecidableEq

namespace Token

def lexeme (t : Token) : Lexeme := ⟨t.kind, t.text⟩

/-- The kind of a text that is no string literal, which its first character shows. -/
def Kind.ofText (s : String) : Kind :=
  match s.toList with
  | [] => .eof
  | c :: cs =>
    if isDigit c then .number
    else if isLetter c then if c :: cs = ['i', 'n'] then .keyword else .ident
    else if Keyword.symbols.contains c then .keyword
    else if (Prim.ofSymbol? c).isSome then .type
    else .op

theorem Kind.ofText_ne_string (s : String) : Kind.ofText s ≠ .string := by
  grind [Kind.ofText]

/-- A string literal, or a token whose kind shows in its text. -/
def Regular (t : Token) : Prop := t.kind = .string ∨ t.kind = .ofText t.text

end Token

/-- The lexeme that is spelled `s`. -/
def Lexeme.ofText (s : String) : Lexeme := ⟨.ofText s, s⟩

namespace Token

/-! ### Tokens by their text -/

theorem spells_iff {t : Token} {s : String} :
    t.spells s = true ↔ t.text = s ∧ t.kind ≠ .string ∧ t.kind ≠ .eof := by
  simp [spells, and_assoc]

theorem spells_of_lexeme {t : Token} {s : String} (h : t.lexeme = .ofText s) (hs : Kind.ofText s ≠ .eof) :
    t.spells s = true := by
  have hk : t.kind = .ofText s := congrArg Lexeme.kind h
  refine spells_iff.2 ⟨congrArg Lexeme.text h, ?_, ?_⟩
  · rw [hk]
    exact Kind.ofText_ne_string s
  · rw [hk]
    exact hs

theorem Regular.kind_eq {t : Token} (h : t.Regular) (hk : t.kind ≠ .string) : t.kind = .ofText t.text :=
  h.resolve_left hk

theorem Regular.lexeme_eq {t : Token} {s : String} (h : t.Regular) (hs : t.spells s = true) :
    t.lexeme = .ofText s := by
  obtain ⟨rfl, hk, -⟩ := spells_iff.1 hs
  rw [lexeme, Lexeme.ofText, h.kind_eq hk]

/-- Whether a token is spelled `s` shows in its text alone, if `s` is not the text of another kind. -/
theorem spells_eq_false {t : Token} {s : String} (h : t.text ≠ s) : t.spells s = false :=
  Bool.eq_false_iff.2 fun hs => h (spells_iff.1 hs).1

theorem kind_of_lexeme {t : Token} {x : Lexeme} (h : t.lexeme = x) : t.kind = x.kind :=
  congrArg Lexeme.kind h

theorem text_of_lexeme {t : Token} {x : Lexeme} (h : t.lexeme = x) : t.text = x.text :=
  congrArg Lexeme.text h

/-! ### The tokens of a source text -/

theorem ofText_ofList_cons {c : Char} {cs : List Char} :
    Kind.ofText (.ofList (c :: cs)) =
      if isDigit c then .number
      else if isLetter c then if c :: cs = ['i', 'n'] then .keyword else .ident
      else if Keyword.symbols.contains c then .keyword
      else if (Prim.ofSymbol? c).isSome then .type
      else .op := by
  rw [Kind.ofText, String.toList_ofList]

theorem ofText_toString (c : Char) : Kind.ofText c.toString = Kind.ofText (.ofList [c]) := by
  rw [Kind.ofText, Kind.ofText, String.toList_ofList, Char.toString, String.toList_singleton]

/-- A number starts with the digit that it was told by. -/
theorem number?_cons {c : Char} {cs lexeme rest : List Char} (hc : isDigit c = true)
    (h : number? (c :: cs) = some (lexeme, rest)) : ∃ ds, lexeme = c :: ds := by
  obtain ⟨⟨exp, rest'⟩, -, heq⟩ := Option.map_eq_some_iff.1 h
  cases heq
  rw [List.takeWhile_cons_of_pos hc]
  exact ⟨_, rfl⟩

theorem operator?_cons {c : Char} {cs op rest : List Char} (h : operator? (c :: cs) = some (op, rest)) :
    ∃ ds, op = c :: ds := by
  obtain ⟨op', hfind, heq⟩ := Option.map_eq_some_iff.1 h
  cases heq
  have hne : op ≠ [] := by
    rintro rfl
    have hmem : [] ∈ operators := List.mem_of_find?_eq_some hfind
    revert hmem
    decide
  obtain ⟨d, ds, rfl⟩ := List.exists_cons_of_ne_nil hne
  have hpre := List.find?_some hfind
  rw [List.isPrefixOf_cons_cons, Bool.and_eq_true, beq_iff_eq] at hpre
  exact ⟨ds, by rw [hpre.1]⟩

theorem regular_of_opens {p : Pos} {c : Char} {cs : List Char} {t : Token} (h : Opens p c cs t) :
    t.Regular := by
  cases h with
  | string => exact .inl rfl
  | number hc h =>
    obtain ⟨ds, rfl⟩ := number?_cons hc h
    exact .inr (by rw [ofText_ofList_cons, if_pos hc])
  | word hd h =>
    right
    rw [ofText_ofList_cons, hd, h]
    simp
  | keyword hd hl h =>
    right
    rw [ofText_toString, ofText_ofList_cons, hd, hl, h]
    rfl
  | type hd hl hk h =>
    right
    rw [ofText_toString, ofText_ofList_cons, hd, hl, hk, h]
    rfl
  | operator hd hl hk ht h =>
    obtain ⟨ds, rfl⟩ := operator?_cons h
    right
    rw [ofText_ofList_cons, hd, hl, hk, ht]
    rfl

theorem kind_ne_eof_of_opens {p : Pos} {c : Char} {cs : List Char} {t : Token} (h : Opens p c cs t) :
    t.kind ≠ .eof := by
  cases h with
  | word =>
    show (if _ then _ else _) ≠ _
    split <;> simp
  | _ => simp

/-- Tokens as a source text has them. -/
def Proper (ts : List Token) : Prop := ∀ t ∈ ts, t.Regular ∧ Sane t

theorem proper_cons {t : Token} {ts : List Token} : Proper (t :: ts) ↔ (t.Regular ∧ Sane t) ∧ Proper ts :=
  List.forall_mem_cons

theorem proper_append {ts us : List Token} : Proper (ts ++ us) ↔ Proper ts ∧ Proper us :=
  List.forall_mem_append

theorem ofText_of_kind {t : Token} {k : Kind} (h : t.Regular ∧ Sane t) (hk : t.kind = k) (hne : k ≠ .string) :
    Kind.ofText t.text = k :=
  (h.1.kind_eq (hk ▸ hne)).symm.trans hk

/-- The tokens of a source text are regular, and only the last one marks the end. -/
theorem regular_of_scan {source : String} {ts : List Token} (h : scan source = .ok ts) :
    ∃ body q, ts = body ++ [endAt q] ∧ ∀ t ∈ body, (t.Regular ∧ Sane t) ∧ t.kind ≠ .eof := by
  obtain ⟨body, q, rfl, hbody⟩ := tokens_of_scanFrom h
  refine ⟨body, q, rfl, fun t ht => ?_⟩
  obtain ⟨p, c, cs, ho⟩ := hbody t ht
  exact ⟨⟨regular_of_opens ho, sane_of_opens ho⟩, kind_ne_eof_of_opens ho⟩

end Token

end Snack
