import Snack.Proofs.Steps
import Snack.Proofs.Token.Scan

/-! Lexemes as a source text spells them, and which of them is read where several stand at the same place:
always the longest, of whatever kind. -/

namespace Snack.Token

open Numeral (Digits Fraction Exponent Spelling)

/-! ### Lexemes -/

/-- The characters between the quotes of a string literal, and those that they stand for. -/
inductive Decodes : List Char → List Char → Prop where
  | nil : Decodes [] []
  | plain {c body value} (hc : c ∉ ['"', '\\', '\n']) (h : Decodes body value) :
      Decodes (c :: body) (c :: value)
  | escape {c d body value} (hc : escape? c = some d) (h : Decodes body value) :
      Decodes ('\\' :: c :: body) (d :: value)

/-- How a token of a kind and a text can be spelled. -/
inductive Lexes : Kind → String → List Char → Prop where
  | number {cs} (h : Spelling cs) : Lexes .number (.ofList cs) cs
  | string {body value} (h : Decodes body value) : Lexes .string (.ofList value) ('"' :: (body ++ ['"']))
  | ident {c cs} (hc : isLetter c = true) (h : ∀ x ∈ cs, isWordChar x = true) (hin : c :: cs ≠ ['i', 'n']) :
      Lexes .ident (.ofList (c :: cs)) (c :: cs)
  | inside : Lexes .keyword (.ofList ['i', 'n']) ['i', 'n']
  | keyword {c} (h : c ∈ Keyword.symbols) : Lexes .keyword c.toString [c]
  | type (p : Prim) : Lexes .type p.symbol.toString [p.symbol]
  | op {cs} (h : cs ∈ operators) : Lexes .op (.ofList cs) cs

/-- Of all lexemes that stand at the head of `cs ++ rest`, none is longer than `cs`. -/
def Longest (cs rest : List Char) : Prop :=
  ∀ kind text other, Lexes kind text other → other <+: cs ++ rest → other.length ≤ cs.length

/-- The kind of the lexemes that begin with a character. The word `in` counts as a name here. -/
def Kind.lead (c : Char) : Kind :=
  if isDigit c then .number
  else if c == '"' then .string
  else if isLetter c then .ident
  else if Keyword.symbols.contains c then .keyword
  else if (Prim.ofSymbol? c).isSome then .type
  else .op

/-- How a lexeme of a kind goes on behind its first character. -/
def Shape (c : Char) (cs : List Char) : Kind → Prop
  | .number => Spelling (c :: cs)
  | .string => ∃ body value, Decodes body value ∧ cs = body ++ ['"']
  | .ident => ∀ x ∈ cs, isWordChar x = true
  | .keyword | .type => cs = []
  | .op => c :: cs ∈ operators
  | .eof => False

theorem isDigit_of_isLetter {c : Char} (h : isLetter c = true) : isDigit c = false := by
  by_cases hd : isDigit c = true
  · have hrange := Numeral.toNat_of_isDigit hd
    simp only [isLetter, Bool.or_eq_true, Bool.and_eq_true, decide_eq_true_eq, beq_iff_eq] at h
    rcases h with (⟨h, -⟩ | ⟨h, -⟩) | rfl
    · have hlow : 97 ≤ c.toNat := h
      omega
    · have hlow : 65 ≤ c.toNat := h
      omega
    · exact absurd hd (by decide)
  · simpa using hd

theorem lead_of_isLetter {c : Char} (h : isLetter c = true) : Kind.lead c = .ident := by
  have hquote : (c == '"') = false := by
    rw [beq_eq_false_iff_ne]
    rintro rfl
    exact absurd h (by decide)
  simp [Kind.lead, isDigit_of_isLetter h, hquote, h]

theorem lead_of_mem_symbols {c : Char} (h : c ∈ Keyword.symbols) : Kind.lead c = .keyword := by
  have hall : Keyword.symbols.all (fun c => Kind.lead c = .keyword) = true := by decide
  simpa using List.all_eq_true.1 hall c h

theorem lead_symbol (p : Prim) : Kind.lead p.symbol = .type := by
  cases p <;> rfl

theorem lead_of_operator {c : Char} {cs : List Char} (h : c :: cs ∈ operators) : Kind.lead c = .op := by
  have hall : operators.all (fun cs => cs.head?.map Kind.lead = some .op) = true := by decide
  simpa using List.all_eq_true.1 hall _ h

/-- The first character of a lexeme tells its kind. -/
theorem Lexes.shape {kind : Kind} {text : String} {c : Char} {cs : List Char}
    (h : Lexes kind text (c :: cs)) : Shape c cs (Kind.lead c) := by
  generalize hlist : c :: cs = lexeme at h
  cases h with
  | number h =>
    have hc : isDigit c = true := by
      obtain ⟨hw, -, -⟩ := id h
      obtain ⟨d, ds, rfl⟩ := List.exists_cons_of_ne_nil hw.ne_nil
      cases hlist
      exact hw.all _ List.mem_cons_self
    have hlead : Kind.lead c = .number := by simp [Kind.lead, hc]
    rw [hlead, Shape, hlist]
    exact h
  | string h =>
    cases hlist
    exact ⟨_, _, h, rfl⟩
  | ident hc h =>
    cases hlist
    rw [lead_of_isLetter hc]
    exact h
  | inside =>
    cases hlist
    exact List.all_eq_true.1 rfl
  | keyword h =>
    cases hlist
    rw [lead_of_mem_symbols h]
    rfl
  | type p =>
    cases hlist
    rw [lead_symbol]
    rfl
  | op h =>
    rw [← hlist] at h
    rw [lead_of_operator h]
    exact h

theorem Lexes.ne_nil {kind : Kind} {text : String} {cs : List Char} (h : Lexes kind text cs) : cs ≠ [] := by
  cases h with
  | number h =>
    obtain ⟨hw, -, -⟩ := h
    simp [hw.ne_nil]
  | op h =>
    rintro rfl
    exact absurd h (by decide)
  | _ => simp

/-- To be the longest it is enough to be longer than what begins with the same character. -/
theorem longest_of_shape {c : Char} {cs rest : List Char}
    (h : ∀ other, Shape c other (Kind.lead c) → other <+: cs ++ rest → other.length ≤ cs.length) :
    Longest (c :: cs) rest := by
  intro kind text other hlex hpre
  cases other with
  | nil => simp
  | cons d other =>
    rw [List.cons_append] at hpre
    obtain ⟨rfl, htail⟩ := List.cons_prefix_cons.1 hpre
    simpa using h other hlex.shape htail

/-! ### Runs of characters -/

/-- Where a text begins with a run of characters and something that cannot belong to it, the run is the whole
of what can be taken there. -/
theorem run_prefix {p : Char → Bool} {ds tail cs : List Char} (hds : ∀ x ∈ ds, p x = true)
    (htail : ∀ x ∈ tail.head?, p x = false) (h : ds ++ tail <+: cs) :
    (tail = [] ∧ ds.length ≤ (cs.takeWhile p).length) ∨
      (ds = cs.takeWhile p ∧ tail <+: cs.dropWhile p) := by
  induction ds generalizing cs with
  | nil =>
    cases tail with
    | nil => simp
    | cons x tail =>
      obtain ⟨rest, rfl⟩ := h
      have hx : p x = false := htail x rfl
      simp [hx]
  | cons d ds ih =>
    obtain ⟨hd, hds⟩ := List.forall_mem_cons.1 hds
    cases cs with
    | nil => simp at h
    | cons c cs =>
      obtain ⟨rfl, htail⟩ := List.cons_prefix_cons.1 h
      rcases ih hds htail with ⟨rfl, hlen⟩ | ⟨hrun, hrest⟩
      · left
        simpa [hd] using hlen
      · right
        simpa [hd, ← hrun] using hrest

theorem longest_word {c : Char} (hc : isLetter c = true) (cs : List Char) :
    Longest (c :: cs.takeWhile isWordChar) (cs.dropWhile isWordChar) := by
  apply longest_of_shape
  rw [lead_of_isLetter hc, List.takeWhile_append_dropWhile]
  intro other hother hpre
  rw [← List.append_nil other] at hpre
  rcases run_prefix hother (by simp) hpre with ⟨-, hlen⟩ | ⟨hrun, -⟩
  · exact hlen
  · exact Nat.le_of_eq (congrArg List.length hrun)

/-! ### Numbers -/

theorem fraction_append (cs : List Char) : (fraction cs).1 ++ (fraction cs).2 = cs := by
  unfold fraction
  split
  · split <;> simp
  · rfl

theorem exponentSign_append (cs : List Char) : (exponentSign cs).1 ++ (exponentSign cs).2 = cs := by
  unfold exponentSign
  split
  · split <;> rfl
  · rfl

theorem exponent?_append {cs exp rest : List Char} (h : exponent? cs = some (exp, rest)) :
    exp ++ rest = cs := by
  unfold exponent? at h
  split at h
  · next c cs =>
    split at h
    · dsimp only at h
      split at h
      · cases h
      · cases h
        simp [exponentSign_append]
    · cases h
      rfl
  · cases h
    rfl

/-- The three parts of a number. -/
theorem number?_parts {cs lexeme rest : List Char} (h : number? cs = some (lexeme, rest)) :
    ∃ exp, exponent? (fraction (cs.dropWhile isDigit)).2 = some (exp, rest) ∧
      lexeme = cs.takeWhile isDigit ++ (fraction (cs.dropWhile isDigit)).1 ++ exp := by
  obtain ⟨⟨exp, rest'⟩, hexp, heq⟩ := Option.map_eq_some_iff.1 h
  obtain ⟨rfl, rfl⟩ := Prod.mk.inj heq
  exact ⟨exp, hexp, rfl⟩

theorem number?_append {cs lexeme rest : List Char} (h : number? cs = some (lexeme, rest)) :
    lexeme ++ rest = cs := by
  obtain ⟨exp, hexp, rfl⟩ := number?_parts h
  simp [exponent?_append hexp, fraction_append]

/-- An exponent begins with its mark. -/
theorem head_of_exponent {exp : List Char} (h : Exponent exp) : ∀ x ∈ exp.head?, x = 'e' ∨ x = 'E' := by
  cases h with
  | none => simp
  | mark hc =>
    rintro x ⟨⟩
    simpa using hc

theorem not_digit_of_mark {c : Char} (h : c = 'e' ∨ c = 'E') : isDigit c = false ∧ c ≠ '.' := by
  rcases h with rfl | rfl <;> decide

/-- The sign is taken as such, since no digit is one. -/
theorem exponentSign_of_digits {sign ds : List Char} (hs : sign ∈ [[], ['+'], ['-']]) (h : Digits ds)
    (tail : List Char) : exponentSign (sign ++ ds ++ tail) = (sign, ds ++ tail) := by
  obtain ⟨d, ds, rfl⟩ := List.exists_cons_of_ne_nil h.ne_nil
  have hd : isDigit d = true := h.all d List.mem_cons_self
  have hnot : (d == '+' || d == '-') = false := by
    by_cases hd' : d = '+' ∨ d = '-'
    · rcases hd' with rfl | rfl <;> exact absurd hd (by decide)
    · simpa using hd'
  rcases Numeral.eq_of_sign hs with rfl | rfl | rfl
  · simp [exponentSign, hnot]
  · rfl
  · rfl

theorem length_le_exponent? {cs exp rest e : List Char} (h : exponent? cs = some (exp, rest))
    (he : Exponent e) (hpre : e <+: cs) : e.length ≤ exp.length := by
  cases he with
  | none => simp
  | @mark c sign ds hc hs hds =>
    obtain ⟨tail, rfl⟩ := hpre
    have hmark : (c == 'e' || c == 'E') = true := by simpa using hc
    have hsign := exponentSign_of_digits hs hds tail
    have hexp : exponent? (c :: (sign ++ ds ++ tail)) =
        if ((ds ++ tail).takeWhile isDigit).isEmpty then none
        else some (c :: sign ++ (ds ++ tail).takeWhile isDigit, (ds ++ tail).dropWhile isDigit) := by
      rw [exponent?, if_pos hmark, hsign]
    rw [List.cons_append, hexp] at h
    split at h
    · cases h
    · cases h
      have hall : ∀ x ∈ ds, isDigit x = true := hds.all
      have hpre : ds ++ [] <+: ds ++ tail := by simp
      have hrun := run_prefix hall (by simp) hpre
      rcases hrun with ⟨-, hlen⟩ | ⟨hrun, -⟩
      · simpa using hlen
      · rw [← hrun]
        simp

/-- A fraction with an exponent behind it is taken in full, or there is nothing behind it. -/
theorem fraction_prefix {cs f e : List Char} (hf : Fraction f) (he : Exponent e) (hpre : f ++ e <+: cs) :
    (e = [] ∧ f.length ≤ (fraction cs).1.length) ∨ (f = (fraction cs).1 ∧ e <+: (fraction cs).2) := by
  cases hf with
  | none =>
    rw [List.nil_append] at hpre
    cases e with
    | nil => simp
    | cons c e =>
      obtain ⟨tail, rfl⟩ := hpre
      have hc := not_digit_of_mark (head_of_exponent he c rfl)
      have hnone : fraction (c :: e ++ tail) = ([], c :: e ++ tail) := by
        rw [List.cons_append, fraction]
        intro d rest hlist
        exact hc.2 (List.cons.inj hlist).1
      rw [hnone]
      simp
  | @point ds hds =>
    obtain ⟨tail, rfl⟩ := hpre
    obtain ⟨d, ds, rfl⟩ := List.exists_cons_of_ne_nil hds.ne_nil
    have hall : ∀ x ∈ d :: ds, isDigit x = true := hds.all
    obtain ⟨hd, hall⟩ := List.forall_mem_cons.1 hall
    have hpoint : fraction ('.' :: d :: ds ++ e ++ tail) =
        ('.' :: d :: (ds ++ e ++ tail).takeWhile isDigit, (ds ++ e ++ tail).dropWhile isDigit) := by
      simp [fraction, hd]
    have hstop : ∀ x ∈ e.head?, isDigit x = false := fun x hx => (not_digit_of_mark (head_of_exponent he x hx)).1
    rw [hpoint]
    rcases run_prefix hall hstop (List.prefix_append (ds ++ e) tail) with ⟨rfl, hlen⟩ | ⟨hrun, hrest⟩
    · left
      simpa using hlen
    · right
      exact ⟨by rw [← hrun], hrest⟩

theorem length_le_number? {cs lexeme rest other : List Char} (h : number? cs = some (lexeme, rest))
    (ho : Spelling other) (hpre : other <+: cs) : other.length ≤ lexeme.length := by
  obtain ⟨exp, hexp, rfl⟩ := number?_parts h
  obtain @⟨w, f, e, hw, hf, he⟩ := ho
  have hall : ∀ x ∈ w, isDigit x = true := hw.all
  have hstop : ∀ x ∈ (f ++ e).head?, isDigit x = false := by
    cases hf with
    | none => exact fun x hx => (not_digit_of_mark (head_of_exponent he x hx)).1
    | point =>
      rintro x ⟨⟩
      decide
  rcases run_prefix hall hstop hpre with ⟨hnil, hlen⟩ | ⟨hwhole, hrest⟩
  · simp [hnil]
    omega
  · have hlen : w.length = (cs.takeWhile isDigit).length := congrArg List.length hwhole
    rcases fraction_prefix hf he hrest with ⟨rfl, hfrac⟩ | ⟨rfl, hexpo⟩
    · simp
      omega
    · have := length_le_exponent? hexp he hexpo
      simp
      omega

/-- Digits are taken up to a fraction or an exponent. -/
theorem takeWhile_of_parts {whole frac exp : List Char} (hw : Digits whole) (hf : Fraction frac)
    (he : Exponent exp) : (whole ++ (frac ++ exp)).takeWhile isDigit = whole ∧
      (whole ++ (frac ++ exp)).dropWhile isDigit = frac ++ exp := by
  have hall : ∀ x ∈ whole, isDigit x = true := hw.all
  rw [List.takeWhile_append_of_pos hall, List.dropWhile_append_of_pos hall]
  cases hf with
  | none =>
    obtain ⟨htake, hdrop⟩ : exp.takeWhile isDigit = [] ∧ exp.dropWhile isDigit = exp := he.no_digit
    simp [htake, hdrop]
  | point => exact ⟨List.append_nil whole, rfl⟩

theorem fraction_of_parts {frac exp : List Char} (hf : Fraction frac) (he : Exponent exp) :
    fraction (frac ++ exp) = (frac, exp) := by
  cases hf with
  | none =>
    cases he with
    | none => rfl
    | mark hc => rcases Numeral.eq_of_mark hc with rfl | rfl <;> rfl
  | @point ds h =>
    obtain ⟨htake, hdrop⟩ := takeWhile_of_parts h .none he
    obtain ⟨d, ds, rfl⟩ := List.exists_cons_of_ne_nil h.ne_nil
    have hd : isDigit d = true := h.all d List.mem_cons_self
    rw [List.nil_append, List.cons_append, List.takeWhile_cons_of_pos hd] at htake
    rw [List.nil_append, List.cons_append, List.dropWhile_cons_of_pos hd] at hdrop
    have htail := (List.cons.inj htake).2
    rw [List.cons_append, List.cons_append, fraction, if_pos hd, htail, hdrop]

theorem exponent?_of_exponent {exp : List Char} (h : Exponent exp) : exponent? exp = some (exp, []) := by
  cases h with
  | none => rfl
  | @mark c sign ds hc hs h =>
    have hmark : (c == 'e' || c == 'E') = true := by simpa using hc
    have hsign := exponentSign_of_digits hs h []
    obtain ⟨htake, hdrop⟩ := takeWhile_of_parts h .none .none
    rw [List.append_nil, List.append_nil] at hsign
    rw [List.append_nil, List.append_nil] at htake hdrop
    rw [exponent?, if_pos hmark, hsign]
    simp [htake, hdrop, h.ne_nil]

/-- A number that stands alone is taken in full. -/
theorem number?_of_spelling {cs : List Char} (h : Spelling cs) : number? cs = some (cs, []) := by
  obtain ⟨hw, hf, he⟩ := h
  obtain ⟨htake, hdrop⟩ := takeWhile_of_parts hw hf he
  simp [number?, htake, hdrop, fraction_of_parts hf he, exponent?_of_exponent he]

theorem longest_number {c : Char} {cs lexeme rest : List Char} (hc : isDigit c = true)
    (h : number? (c :: cs) = some (lexeme, rest)) : Longest lexeme rest := by
  intro kind text other hlex hpre
  rw [number?_append h] at hpre
  cases other with
  | nil => simp
  | cons d other =>
    obtain ⟨rfl, -⟩ := List.cons_prefix_cons.1 hpre
    have hlead : Kind.lead d = .number := by simp [Kind.lead, hc]
    have hshape := hlex.shape
    rw [hlead] at hshape
    exact length_le_number? h hshape hpre

/-! ### String literals, comments and operators -/

theorem escape?_ne_feed {c d : Char} (h : escape? c = some d) : c ≠ '\n' := by
  rintro rfl
  cases h

/-- A literal ends at the first quote that no backslash stands before. -/
theorem Decodes.unique {body value body' value' rest rest' : List Char} (h : Decodes body value)
    (h' : Decodes body' value') (heq : body ++ '"' :: rest = body' ++ '"' :: rest') : body = body' := by
  induction h generalizing body' value' with
  | nil =>
    cases h' with
    | nil => rfl
    | plain hc => simp [← (List.cons.inj heq).1] at hc
    | escape => simp at heq
  | plain hc h ih =>
    cases h' with
    | nil => simp [(List.cons.inj heq).1] at hc
    | plain hc' h' =>
      obtain ⟨rfl, htail⟩ := List.cons.inj heq
      rw [ih h' htail]
    | escape => simp [(List.cons.inj heq).1] at hc
  | escape hc h ih =>
    cases h' with
    | nil => simp at heq
    | plain hc' => simp [← (List.cons.inj heq).1] at hc'
    | escape hc' h' =>
      obtain ⟨rfl, htail⟩ := List.cons.inj (List.cons.inj heq).2
      rw [ih h' htail]

theorem longest_string {body value rest : List Char} (h : Decodes body value) :
    Longest ('"' :: (body ++ ['"'])) rest := by
  apply longest_of_shape
  rintro other ⟨body', value', h', rfl⟩ ⟨tail, htail⟩
  rw [List.append_assoc, List.append_assoc] at htail
  obtain rfl := h'.unique h htail
  exact Nat.le_refl _

/-- What can stand in a literal where its closing quote is missing: the end of the text, with a backslash
before it or not, or the end of the line. -/
inductive Unclosed : List Char → Prop where
  | stop : Unclosed []
  | slash : Unclosed ['\\']
  | feed {tail} : Unclosed ('\n' :: tail)

/-- What becomes of the text behind an opening quote at `start`, which begins at `p`. -/
inductive Tail (start p : Pos) : List Char → Except Error (List Char × Pos × List Char) → Prop where
  | closed {body value rest} (h : Decodes body value) :
      Tail start p (body ++ '"' :: rest) (.ok (value, p.afterAll (body ++ ['"']), rest))
  | unclosed {body value tail} (h : Decodes body value) (ht : Unclosed tail) :
      Tail start p (body ++ tail) (.error ⟨.unterminatedString, start⟩)
  | badEscape {body value c tail} (h : Decodes body value) (hc : escape? c = none) :
      Tail start p (body ++ '\\' :: c :: tail) (.error ⟨.badEscape c, p.afterAll body⟩)

/-- Some characters that stand for one are put in front. -/
theorem Tail.extend {start p : Pos} {d : Char} {cs : List Char} (before : List Char)
    {r : Except Error (List Char × Pos × List Char)}
    (hd : ∀ body value, Decodes body value → Decodes (before ++ body) (d :: value))
    (h : Tail start (p.afterAll before) cs r) :
    Tail start p (before ++ cs) (r.map fun x => (d :: x.1, x.2.1, x.2.2)) := by
  cases h with
  | closed h =>
    rw [← List.append_assoc, ← Pos.afterAll_append, ← List.append_assoc]
    exact .closed (hd _ _ h)
  | unclosed h ht =>
    rw [← List.append_assoc]
    exact .unclosed (hd _ _ h) ht
  | badEscape h hc =>
    rw [← List.append_assoc, ← Pos.afterAll_append]
    exact .badEscape (hd _ _ h) hc

theorem tail_stringTail (start p : Pos) (cs : List Char) : Tail start p cs (stringTail start p cs) := by
  fun_induction stringTail start p cs with
  | case1 => exact @Tail.unclosed _ _ [] _ _ .nil .stop
  | case2 => exact @Tail.closed _ _ [] _ _ .nil
  | case3 => exact @Tail.unclosed _ _ [] _ _ .nil .feed
  | case4 => exact @Tail.unclosed _ _ [] _ _ .nil .slash
  | case5 p c cs d hd ih =>
    have hafter : (⟨p.line, p.col + 2⟩ : Pos) = p.afterAll ['\\', c] := by
      simp [Pos.after, escape?_ne_feed hd, Int.add_assoc]
    rw [hafter] at ih ⊢
    exact ih.extend ['\\', c] fun _ _ h => .escape hd h
  | case6 p c cs hc => exact @Tail.badEscape _ _ [] _ _ _ .nil hc
  | case7 p c cs hquote hfeed hlast hescape ih =>
    have hslash : c ≠ '\\' := by
      rintro rfl
      cases cs with
      | nil => exact hlast rfl rfl
      | cons d cs => exact hescape d cs rfl rfl
    exact ih.extend [c] fun _ _ h => .plain (by simpa using ⟨hquote, hslash, hfeed⟩) h

/-- Behind an opening quote, the characters up to the closing one are read as what they stand for. -/
theorem Decodes.stringTail_eq {body value : List Char} (h : Decodes body value) (start p : Pos)
    (rest : List Char) :
    stringTail start p (body ++ '"' :: rest) = .ok (value, p.afterAll (body ++ ['"']), rest) := by
  induction h generalizing p with
  | nil => rfl
  | @plain c body value hc _ ih =>
    simp only [List.mem_cons, List.not_mem_nil, or_false, not_or] at hc
    obtain ⟨hquote, hslash, hfeed⟩ := hc
    rw [List.cons_append, stringTail, ih]
    · rfl
    · exact hquote
    · exact hfeed
    · exact fun h _ => hslash h
    · exact fun _ _ h _ => hslash h
  | @escape c d body value hc _ ih =>
    have hafter : (⟨p.line, p.col + 2⟩ : Pos) = p.afterAll ['\\', c] := by
      simp [Pos.after, escape?_ne_feed hc, Int.add_assoc]
    rw [List.cons_append, List.cons_append, stringTail, hc]
    dsimp only
    rw [ih, hafter]
    rfl

theorem commentTail_eq_some {p q : Pos} {cs rest : List Char} (h : commentTail p cs = some (q, rest)) :
    ∃ body, blockComment ∉ body ∧ cs = body ++ blockComment :: rest ∧
      q = p.afterAll (body ++ [blockComment]) := by
  induction cs generalizing p with
  | nil => cases h
  | cons c cs ih =>
    rw [commentTail] at h
    split at h
    · next hc =>
      obtain rfl : c = blockComment := by simpa using hc
      cases h
      exact ⟨[], by simp, rfl, rfl⟩
    · next hc =>
      obtain ⟨body, hbody, rfl, rfl⟩ := ih h
      have hne : blockComment ≠ c := by
        rintro rfl
        simp at hc
      exact ⟨c :: body, by simp [hne, hbody], rfl, rfl⟩

theorem commentTail_eq_none {p : Pos} {cs : List Char} (h : commentTail p cs = none) : blockComment ∉ cs := by
  induction cs generalizing p with
  | nil => simp
  | cons c cs ih =>
    rw [commentTail] at h
    split at h
    · cases h
    · next hc =>
      have hne : blockComment ≠ c := by
        rintro rfl
        simp at hc
      simp [hne, ih h]

theorem operator?_eq_some {cs op rest : List Char} (h : operator? cs = some (op, rest)) :
    op ∈ operators ∧ op ++ rest = cs ∧ ∀ other ∈ operators, other <+: cs → other.length ≤ op.length := by
  obtain ⟨op', hfind, heq⟩ := Option.map_eq_some_iff.1 h
  obtain ⟨rfl, rfl⟩ := Prod.mk.inj heq
  obtain ⟨hpre, longer, shorter, hlist, hnot⟩ := List.find?_eq_some_iff_append.1 hfind
  have hpre : op' <+: cs := List.isPrefixOf_iff_prefix.1 hpre
  -- the list holds longer operators first
  have hsorted : operators.Pairwise fun a b => b.length ≤ a.length := by decide
  rw [hlist] at hsorted
  refine ⟨List.mem_of_find?_eq_some hfind, ?_, fun other hmem hother => ?_⟩
  · obtain ⟨rest, rfl⟩ := hpre
    simp
  · rw [hlist, List.mem_append, List.mem_cons] at hmem
    rcases hmem with hmem | rfl | hmem
    · have hno := hnot other hmem
      simp [List.isPrefixOf_iff_prefix.2 hother] at hno
    · exact Nat.le_refl _
    · exact (List.pairwise_cons.1 (List.pairwise_append.1 hsorted).2.1).1 other hmem

theorem longest_operator {cs op rest : List Char} (h : operator? cs = some (op, rest)) : Longest op rest := by
  obtain ⟨hmem, rfl, hlongest⟩ := operator?_eq_some h
  obtain ⟨c, tail, rfl⟩ := List.exists_cons_of_ne_nil (Lexes.op hmem).ne_nil
  apply longest_of_shape
  rw [lead_of_operator hmem]
  intro other hother hpre
  have hpre : c :: other <+: c :: tail ++ rest := List.cons_prefix_cons.2 ⟨rfl, hpre⟩
  simpa using hlongest _ hother hpre

/-- An emoji is a lexeme of its own. -/
theorem longest_emoji {c : Char} (h : Kind.lead c = .keyword ∨ Kind.lead c = .type) (rest : List Char) :
    Longest [c] rest := by
  apply longest_of_shape
  rcases h with h | h <;>
  · rw [h]
    rintro other rfl -
    exact Nat.le_refl _

/-! ### Lexemes stay in their line -/

theorem Decodes.inline {body value : List Char} (h : Decodes body value) : '\n' ∉ body := by
  induction h with
  | nil => simp
  | plain hc _ ih =>
    rw [List.mem_cons, not_or]
    refine ⟨?_, ih⟩
    rintro rfl
    simp at hc
  | escape hc _ ih =>
    have hne := escape?_ne_feed hc
    simp [ih, hne.symm]

theorem Lexes.inline {kind : Kind} {text : String} {cs : List Char} (h : Lexes kind text cs) : '\n' ∉ cs := by
  cases h with
  | number h => exact fun hmem => absurd (h.inNumber _ hmem) (by decide)
  | string h => simp [h.inline]
  | ident hc h =>
    rw [List.mem_cons, not_or]
    refine ⟨?_, fun hmem => absurd (h _ hmem) (by decide)⟩
    rintro rfl
    exact absurd hc (by decide)
  | inside => decide
  | keyword h =>
    rw [List.mem_singleton]
    rintro rfl
    exact absurd h (by decide)
  | type p => cases p <;> decide
  | op h =>
    have hall : operators.all (fun cs => cs.all (· != '\n')) = true := by decide
    intro hmem
    simpa using List.all_eq_true.1 (List.all_eq_true.1 hall _ h) _ hmem

end Snack.Token
