import Snack.Proofs.Token.Longest

/-! A source text taken apart. A text that can be read is a sequence of items: blanks, comments and the
lexemes of its tokens. No character is lost between them, and each lexeme is the longest one that stands at
its place. Where reading stops before the end, the rest begins with something that cannot be an item. -/

namespace Snack.Token

open Numeral (Digits Fraction)

/-! ### Items -/

/-- What a text is made of. -/
inductive Item where
  | blank (c : Char)
  /-- A comment that goes on to the end of its line. -/
  | line (body : List Char)
  /-- A comment between two marks. -/
  | block (body : List Char)
  | token (t : Token) (lexeme : List Char)

namespace Item

def text : Item → List Char
  | blank c => [c]
  | line body => lineComment :: body
  | block body => blockComment :: (body ++ [blockComment])
  | token _ lexeme => lexeme

def token? : Item → Option Token
  | token t _ => some t
  | _ => none

/-- An item that may stand in front of the rest of a text. -/
def Fits (rest : List Char) : Item → Prop
  | blank c => isBlank c = true
  | line body => '\n' ∉ body ∧ ∀ c ∈ rest.head?, c = '\n'
  | block body => blockComment ∉ body
  | token t lexeme => Lexes t.kind t.text lexeme ∧ Longest lexeme rest

/-- Where reading goes on behind an item. A line comment does not move the place. -/
def next (p : Pos) : Item → Pos
  | line _ => p
  | x => p.afterAll x.text

theorem text_ne_nil {x : Item} {rest : List Char} (h : x.Fits rest) : x.text ≠ [] := by
  cases x with
  | token t lexeme => exact h.1.ne_nil
  | _ => simp [text]

end Item

/-- A text that begins with these items, each of which fits what follows it, and goes on with `rest`. -/
structure Begins (cs : List Char) (items : List Item) (rest : List Char) : Prop where
  text : cs = items.flatMap Item.text ++ rest
  fits : ∀ before x after, items = before ++ x :: after → x.Fits (after.flatMap Item.text ++ rest)

/-- A text at `p` begins with these items, and reading goes on with `rest` at `q`. -/
inductive Walk : Pos → List Char → List Item → Pos → List Char → Prop where
  | nil {p rest} : Walk p rest [] p rest
  | cons {p cs x xs q rest} (hfits : x.Fits cs) (hpos : ∀ t ∈ x.token?, t.pos = p)
      (h : Walk (x.next p) cs xs q rest) : Walk p (x.text ++ cs) (x :: xs) q rest

namespace Walk

variable {p q r : Pos} {cs rest rest' : List Char} {xs ys : List Item}

theorem one {x : Item} (hfits : x.Fits cs) (hpos : ∀ t ∈ x.token?, t.pos = p) :
    Walk p (x.text ++ cs) [x] (x.next p) cs :=
  .cons hfits hpos .nil

theorem append (h : Walk p cs xs q rest) (h' : Walk q rest ys r rest') : Walk p cs (xs ++ ys) r rest' := by
  induction h with
  | nil => exact h'
  | cons hfits hpos _ ih => exact .cons hfits hpos (ih h')

theorem text_eq (h : Walk p cs xs q rest) : cs = xs.flatMap Item.text ++ rest := by
  induction h with
  | nil => rfl
  | cons _ _ _ ih => simp [← ih]

/-- The walk in two parts, with an item between them. -/
theorem split (h : Walk p cs (xs ++ x :: ys) q rest) :
    ∃ r, Walk p cs xs r (x.text ++ (ys.flatMap Item.text ++ rest)) ∧
      x.Fits (ys.flatMap Item.text ++ rest) ∧ ∀ t ∈ x.token?, t.pos = r := by
  induction xs generalizing p cs with
  | nil =>
    cases h with
    | cons hfits hpos h =>
      rw [← h.text_eq]
      exact ⟨p, .nil, hfits, hpos⟩
  | cons y xs ih =>
    cases h with
    | cons hfits hpos h =>
      obtain ⟨r, hwalk, hx⟩ := ih h
      exact ⟨r, .cons hfits hpos hwalk, hx⟩

theorem begins (h : Walk p cs xs q rest) : Begins cs xs rest where
  text := h.text_eq
  fits := by
    rintro before x after rfl
    obtain ⟨r, -, hfits, -⟩ := h.split
    exact hfits

/-- A walk that takes something takes the first character. -/
theorem suffix {c : Char} (h : Walk p (c :: cs) xs q rest) (hne : xs ≠ []) : rest <:+ cs := by
  generalize hlist : c :: cs = full at h
  cases h with
  | nil => exact absurd rfl hne
  | @cons _ cs' x xs _ _ hfits hpos h =>
    obtain ⟨d, ds, htext⟩ := List.exists_cons_of_ne_nil (Item.text_ne_nil hfits)
    rw [htext, h.text_eq] at hlist
    obtain ⟨-, rfl⟩ := List.cons.inj hlist
    exact ⟨ds ++ xs.flatMap Item.text, by simp⟩

end Walk

/-! ### Pieces -/

namespace Piece

/-- What is left of a text behind its first piece. -/
def rest : Piece → List Char
  | gap _ rest | token _ _ rest => rest

/-- Where reading goes on behind a piece. -/
def pos : Piece → Pos
  | gap p _ | token _ p _ => p

def token? : Piece → Option Token
  | gap _ _ => none
  | token t _ _ => some t

end Piece

theorem afterAll_inline {cs : List Char} (h : '\n' ∉ cs) (p : Pos) :
    p.afterAll cs = ⟨p.line, p.col + cs.length⟩ := by
  induction cs generalizing p with
  | nil => simp
  | cons c cs ih =>
    rw [List.mem_cons, not_or] at h
    have hafter : p.after c = ⟨p.line, p.col + 1⟩ := if_neg (Ne.symm h.1)
    rw [Pos.afterAll_cons, hafter, ih h.2]
    simp
    omega

theorem Lexes.walk {kind : Kind} {text : String} {cs rest : List Char} (h : Lexes kind text cs)
    (hl : Longest cs rest) (p : Pos) :
    Walk p (cs ++ rest) [.token ⟨kind, text, p⟩ cs] ⟨p.line, p.col + cs.length⟩ rest := by
  rw [← afterAll_inline h.inline]
  refine Walk.one (x := .token ⟨kind, text, p⟩ cs) ⟨h, hl⟩ ?_
  rintro t ⟨⟩
  rfl

/-- The items of a piece. -/
structure Piece.Walks (p : Pos) (cs : List Char) (x : Piece) (items : List Item) : Prop where
  walk : Walk p cs items x.pos x.rest
  tokens : items.filterMap Item.token? = x.token?.toList
  ne_nil : items ≠ []

theorem walks_one {p : Pos} {x : Item} {y : Piece} (hfits : x.Fits y.rest) (hpos : ∀ t ∈ x.token?, t.pos = p)
    (hnext : y.pos = x.next p) (htoken : y.token? = x.token?) : y.Walks p (x.text ++ y.rest) [x] where
  walk := by
    rw [hnext]
    exact .one hfits hpos
  tokens := by
    rw [htoken]
    cases hx : x.token? <;> simp [hx]
  ne_nil := List.cons_ne_nil _ _

theorem walks_lexeme {kind : Kind} {cs rest : List Char} (h : Lexes kind (.ofList cs) cs)
    (hl : Longest cs rest) (p : Pos) : ∃ items, (Piece.lexeme kind p cs rest).Walks p (cs ++ rest) items :=
  ⟨_, h.walk hl p, rfl, List.cons_ne_nil _ _⟩

/-- A variation selector behind an emoji is a blank. -/
theorem walks_emoji {kind : Kind} {c : Char} (h : Lexes kind c.toString [c])
    (hl : Kind.lead c = .keyword ∨ Kind.lead c = .type) (p : Pos) (cs : List Char) :
    ∃ items, (Piece.emoji kind p c cs).Walks p (c :: cs) items := by
  have hwalk := h.walk (longest_emoji hl cs) p
  unfold Piece.emoji
  split
  · next d rest =>
    split
    · next hd =>
      obtain rfl : d = selector := by simpa using hd
      have hblank : Walk ⟨p.line, p.col + 1⟩ (selector :: rest) [.blank selector] ⟨p.line, p.col + 2⟩ rest := by
        have hfits : (Item.blank selector).Fits rest := rfl
        have hone := Walk.one (p := ⟨p.line, p.col + 1⟩) hfits (by simp [Item.token?])
        have hnext : Item.next ⟨p.line, p.col + 1⟩ (.blank selector) = ⟨p.line, p.col + 2⟩ := by
          simp [Item.next, Item.text, Pos.after, selector]
          omega
        rwa [hnext] at hone
      exact ⟨_, hwalk.append hblank, rfl, List.cons_ne_nil _ _⟩
    · exact ⟨_, hwalk, rfl, List.cons_ne_nil _ _⟩
  · exact ⟨_, hwalk, rfl, List.cons_ne_nil _ _⟩

theorem walks_line (p : Pos) (cs : List Char) :
    (Piece.gap p (cs.dropWhile (· != '\n'))).Walks p (lineComment :: cs) [.line (cs.takeWhile (· != '\n'))] := by
  have hfits : (Item.line (cs.takeWhile (· != '\n'))).Fits (cs.dropWhile (· != '\n')) := by
    constructor
    · intro hmem
      simpa using List.all_eq_true.1 List.all_takeWhile _ hmem
    · intro c hc
      have hnot := List.head?_dropWhile_not (· != '\n') cs
      rw [hc] at hnot
      simpa using hnot
  have hwalks := walks_one (p := p) (y := .gap p (cs.dropWhile (· != '\n'))) hfits (by simp [Item.token?]) rfl rfl
  simpa [Item.text, Piece.rest] using hwalks

/-! ### Faults -/

/-- What keeps a text from being read, and the place that is told, by what stands before it in the text. -/
inductive Fault (place : List Char → Pos) : List Char → Error → Prop where
  | comment {body} (h : blockComment ∉ body) : Fault place (blockComment :: body) ⟨.unterminatedComment, place []⟩
  | string {body value tail} (h : Decodes body value) (ht : Unclosed tail) :
      Fault place ('"' :: (body ++ tail)) ⟨.unterminatedString, place []⟩
  /-- There is no digit behind the mark of an exponent and its sign. -/
  | exponent {whole frac mark sign tail} (hw : Digits whole) (hf : Fraction frac) (hm : mark ∈ ['e', 'E'])
      (hs : sign ∈ [[], ['+'], ['-']])
      (ht : ∀ c ∈ tail.head?, isDigit c = false ∧ (sign = [] → c ≠ '+' ∧ c ≠ '-')) :
      Fault place (whole ++ (frac ++ mark :: (sign ++ tail))) ⟨.badExponent, place []⟩
  | escape {body value c tail} (h : Decodes body value) (hc : escape? c = none) :
      Fault place ('"' :: (body ++ '\\' :: c :: tail)) ⟨.badEscape c, place ('"' :: body)⟩
  /-- Neither a blank nor a comment nor a lexeme begins here. -/
  | unexpected {c tail} (hb : isBlank c = false) (hm : c ∉ [lineComment, blockComment, '"'])
      (h : ∀ kind text lexeme, Lexes kind text lexeme → ¬ lexeme <+: c :: tail) :
      Fault place (c :: tail) ⟨.unexpected c, place []⟩

theorem exponentSign_cases (cs : List Char) :
    ∃ sign tail, exponentSign cs = (sign, tail) ∧ cs = sign ++ tail ∧ sign ∈ [[], ['+'], ['-']] ∧
      ∀ c ∈ tail.head?, sign = [] → c ≠ '+' ∧ c ≠ '-' := by
  have hhead : ∀ c ∈ (exponentSign cs).2.head?, (exponentSign cs).1 = [] → c ≠ '+' ∧ c ≠ '-' := by
    unfold exponentSign
    split
    · split
      · simp
      · next hc => simpa using hc
    · simp
  exact ⟨_, _, rfl, (exponentSign_append cs).symm, exponentSign_mem cs, hhead⟩

theorem fault_of_exponent? {cs : List Char} (h : exponent? cs = none) :
    ∃ mark sign tail, cs = mark :: (sign ++ tail) ∧ mark ∈ ['e', 'E'] ∧ sign ∈ [[], ['+'], ['-']] ∧
      ∀ c ∈ tail.head?, isDigit c = false ∧ (sign = [] → c ≠ '+' ∧ c ≠ '-') := by
  cases cs with
  | nil => cases h
  | cons mark cs =>
    rw [exponent?] at h
    split at h
    · next hmark =>
      obtain ⟨sign, tail, hsign, rfl, hmem, htail⟩ := exponentSign_cases cs
      rw [hsign] at h
      dsimp only at h
      split at h
      · next hempty =>
        refine ⟨mark, sign, tail, rfl, by simpa using hmark, hmem, fun c hc => ⟨?_, htail c hc⟩⟩
        obtain ⟨rest, rfl⟩ : ∃ rest, tail = c :: rest := List.head?_eq_some_iff.1 hc
        by_cases hd : isDigit c = true
        · simp [hd] at hempty
        · simpa using hd
      · cases h
    · cases h

theorem fault_of_number? {c : Char} {cs : List Char} (hc : isDigit c = true) (h : number? (c :: cs) = none)
    (p : Pos) : Fault p.afterAll (c :: cs) ⟨.badExponent, p⟩ := by
  have hexp : exponent? (fraction ((c :: cs).dropWhile isDigit)).2 = none := Option.map_eq_none_iff.1 h
  obtain ⟨mark, sign, tail, hrest, hmark, hsign, htail⟩ := fault_of_exponent? hexp
  have hwhole : Digits ((c :: cs).takeWhile isDigit) := by
    rw [List.takeWhile_cons_of_pos hc]
    exact digits_takeWhile hc
  have hfrac := fraction_of_fraction ((c :: cs).dropWhile isDigit)
  have hfault : Fault p.afterAll _ ⟨.badExponent, p⟩ := .exponent hwhole hfrac hmark hsign htail
  rw [← hrest, fraction_append, List.takeWhile_append_dropWhile] at hfault
  exact hfault

/-! ### Steps -/

/-- What the first piece of a text comes to. -/
inductive Step (p : Pos) (cs : List Char) : Except Error Piece → Prop where
  | items {x items} (h : Piece.Walks p cs x items) : Step p cs (.ok x)
  | fault {e} (h : Fault p.afterAll cs e) : Step p cs (.error e)

theorem Step.of_walks {p : Pos} {cs : List Char} {x : Piece} (h : ∃ items, x.Walks p cs items) :
    Step p cs (.ok x) :=
  h.elim fun _ => .items

theorem step_string (p : Pos) (cs : List Char) :
    Step p ('"' :: cs) ((stringTail p (p.after '"') cs).map fun x =>
      .token ⟨.string, .ofList x.1, p⟩ x.2.1 x.2.2) := by
  have htail := tail_stringTail p (p.after '"') cs
  cases hresult : stringTail p (p.after '"') cs with
  | error e =>
    rw [hresult] at htail
    cases htail with
    | unclosed h ht => exact .fault (.string h ht)
    | badEscape h hc => exact .fault (.escape h hc)
  | ok v =>
    rw [hresult] at htail
    cases htail with
    | @closed body value rest h =>
      have hwalks := walks_one (p := p) (x := .token ⟨.string, .ofList value, p⟩ ('"' :: (body ++ ['"'])))
        (y := .token ⟨.string, .ofList value, p⟩ _ rest) ⟨.string h, longest_string h⟩ (by simp [Item.token?])
        rfl rfl
      simp only [Item.text, Piece.rest, List.cons_append, List.append_assoc, List.nil_append] at hwalks
      exact .items hwalks

theorem walks_block {p q : Pos} {cs rest : List Char}
    (h : commentTail (p.after blockComment) cs = some (q, rest)) :
    ∃ items, (Piece.gap q rest).Walks p (blockComment :: cs) items := by
  obtain ⟨body, hbody, rfl, rfl⟩ := commentTail_eq_some h
  have hwalks := walks_one (p := p) (x := .block body) (y := .gap _ rest) hbody (by simp [Item.token?]) rfl rfl
  simp only [Item.text, Piece.rest, List.cons_append, List.append_assoc, List.nil_append] at hwalks
  exact ⟨_, hwalks⟩

theorem walks_word {c : Char} (hc : isLetter c = true) (p : Pos) (cs : List Char) :
    ∃ items, (Piece.lexeme (if (c :: cs.takeWhile isWordChar) == ['i', 'n'] then .keyword else .ident) p
      (c :: cs.takeWhile isWordChar) (cs.dropWhile isWordChar)).Walks p (c :: cs) items := by
  have hword : ∀ x ∈ cs.takeWhile isWordChar, isWordChar x = true := List.all_eq_true.1 List.all_takeWhile
  have hlexes : Lexes (if (c :: cs.takeWhile isWordChar) == ['i', 'n'] then .keyword else .ident)
      (.ofList (c :: cs.takeWhile isWordChar)) (c :: cs.takeWhile isWordChar) := by
    split
    · next hin =>
      rw [beq_iff_eq.1 hin]
      exact .inside
    · next hin => exact .ident hc hword (by simpa using hin)
  have hwalks := walks_lexeme hlexes (longest_word hc cs) p
  rw [List.cons_append, List.takeWhile_append_dropWhile] at hwalks
  exact hwalks

/-- Where no operator begins and nothing else can begin with the character, there is no lexeme. -/
theorem no_lexeme {c : Char} {cs : List Char} (hlead : Kind.lead c = .op) (h : operator? (c :: cs) = none) :
    ∀ kind text lexeme, Lexes kind text lexeme → ¬ lexeme <+: c :: cs := by
  intro kind text lexeme hlex hpre
  obtain ⟨d, tail, rfl⟩ := List.exists_cons_of_ne_nil hlex.ne_nil
  obtain ⟨rfl, -⟩ := List.cons_prefix_cons.1 hpre
  have hmem := hlex.shape
  rw [hlead] at hmem
  have hnone := List.find?_eq_none.1 (Option.map_eq_none_iff.1 h) _ hmem
  exact hnone (List.isPrefixOf_iff_prefix.2 hpre)

/-- A text begins with a blank, a comment or the lexeme of a token, or with a fault. -/
theorem step_piece (p : Pos) (c : Char) (cs : List Char) : Step p (c :: cs) (piece p c cs) := by
  unfold piece
  split
  · next hc =>
    exact .items (walks_one (x := .blank c) (y := .gap (p.after c) cs) hc (by simp [Item.token?]) rfl rfl)
  next hblank =>
  split
  · next hc =>
    obtain rfl : c = lineComment := by simpa using hc
    exact .items (walks_line p cs)
  next hline =>
  split
  · next hc =>
    obtain rfl : c = blockComment := by simpa using hc
    split
    · next hcomment => exact .of_walks (walks_block hcomment)
    · next hcomment => exact .fault (.comment (commentTail_eq_none hcomment))
  next hblock =>
  split
  · next hc =>
    split
    · next lexeme rest hnumber =>
      have hwalks := walks_lexeme (.number (spelling_of_number? hc hnumber)) (longest_number hc hnumber) p
      rw [number?_append hnumber] at hwalks
      exact .of_walks hwalks
    · next hnumber => exact .fault (fault_of_number? hc hnumber p)
  next hdigit =>
  split
  · next hc =>
    obtain rfl : c = '"' := by simpa using hc
    exact step_string p cs
  next hquote =>
  split
  · next hc => exact .of_walks (walks_word hc p cs)
  next hletter =>
  split
  · next hc =>
    have hmem : c ∈ Keyword.symbols := by simpa using hc
    exact .of_walks (walks_emoji (.keyword hmem) (.inl (lead_of_mem_symbols hmem)) p cs)
  next hsymbol =>
  split
  · next hc =>
    obtain ⟨prim, hprim⟩ := Option.isSome_iff_exists.1 hc
    obtain rfl : prim.symbol = c := by simpa using List.find?_some hprim
    exact .of_walks (walks_emoji (.type prim) (.inr (lead_symbol prim)) p cs)
  next htype =>
  split
  · next op rest hoperator =>
    obtain ⟨hmem, heq, -⟩ := operator?_eq_some hoperator
    rw [← heq]
    exact .of_walks (walks_lexeme (.op hmem) (longest_operator hoperator) p)
  · next hoperator =>
    have hlead : Kind.lead c = .op := by
      rw [Kind.lead, if_neg hdigit, if_neg hquote, if_neg hletter, if_neg hsymbol, if_neg htype]
    refine .fault (.unexpected (by simpa using hblank) ?_ (no_lexeme hlead hoperator))
    simpa using And.intro (by simpa using hline) (And.intro (by simpa using hblock) (by simpa using hquote))

/-- Every piece takes a character. -/
theorem rest_of_piece {p : Pos} {c : Char} {cs : List Char} {x : Piece} (h : piece p c cs = .ok x) :
    x.rest <:+ cs := by
  have hstep := step_piece p c cs
  rw [h] at hstep
  cases hstep with
  | items hwalks => exact hwalks.walk.suffix hwalks.ne_nil

/-! ### Whole texts -/

/-- What a text that begins at `p` comes to. -/
inductive Run (p : Pos) (cs : List Char) : Except Error (List Token) → Prop where
  | tokens {items q} (h : Walk p cs items q []) : Run p cs (.ok (items.filterMap Item.token? ++ [endAt q]))
  | fault {items q rest e} (h : Walk p cs items q rest) (hf : Fault q.afterAll rest e) : Run p cs (.error e)

/-- Some items are put in front. -/
theorem Run.extend {p q : Pos} {cs rest : List Char} {items : List Item} {r : Except Error (List Token)}
    (hwalk : Walk p cs items q rest) (h : Run q rest r) :
    Run p cs (r.map (items.filterMap Item.token? ++ ·)) := by
  cases h with
  | tokens h =>
    have hrun := Run.tokens (hwalk.append h)
    rw [List.filterMap_append, List.append_assoc] at hrun
    exact hrun
  | fault h hf => exact .fault (hwalk.append h) hf

/-- A text is taken apart to its end or up to a fault. -/
theorem run_scanFrom {n : Nat} {p : Pos} {cs : List Char} (hn : cs.length ≤ n) : Run p cs (scanFrom n p cs) := by
  induction n generalizing p cs with
  | zero =>
    obtain rfl := List.eq_nil_of_length_eq_zero (Nat.le_zero.1 hn)
    exact @Run.tokens p [] [] p .nil
  | succ n ih =>
    cases cs with
    | nil => exact @Run.tokens p [] [] p .nil
    | cons c cs =>
      have hstep := step_piece p c cs
      rw [scanFrom]
      cases hpiece : piece p c cs with
      | error e =>
        rw [hpiece] at hstep
        cases hstep with
        | fault hfault => exact .fault .nil hfault
      | ok x =>
        have hlength := (rest_of_piece hpiece).length_le
        rw [hpiece] at hstep
        cases hstep with
        | items hwalks =>
          have hrun := (ih (by simp at hn; omega)).extend hwalks.walk
          rw [hwalks.tokens] at hrun
          cases x with
          | gap q rest =>
            have hsame : (scanFrom n q rest).map ([] ++ ·) = scanFrom n q rest := by
              cases scanFrom n q rest <;> rfl
            show Run p (c :: cs) (scanFrom n q rest)
            rw [← hsame]
            exact hrun
          | token t q rest => exact hrun

/-- A source text that is read is taken apart into blanks, comments and the lexemes of its tokens, in order
and without a character left over. Each of them fits what follows: a line comment ends with its line, and a
lexeme is the longest one at its place. -/
theorem scan_takes_apart {source : String} {ts : List Token} (h : scan source = .ok ts) :
    ∃ items q, Begins source.toList items [] ∧ ts = items.filterMap Item.token? ++ [endAt q] := by
  have hrun : Run .start source.toList (scan source) := run_scanFrom (Nat.le_refl _)
  rw [h] at hrun
  cases hrun with
  | @tokens items q hwalk => exact ⟨items, q, hwalk.begins, rfl⟩

/-- Dots that could belong to a number, a selector, a comment and an escape. -/
def dottedSource : String := "🍽\uFE0F 1...10 🍨 to 🍨 1.5.e?.?in \"a\\n\" 🍦 end"

def dottedTokens : List Token :=
  [⟨.keyword, "🍽", ⟨1, 1⟩⟩, ⟨.number, "1", ⟨1, 4⟩⟩, ⟨.op, "...", ⟨1, 5⟩⟩, ⟨.number, "10", ⟨1, 8⟩⟩,
    ⟨.number, "1.5", ⟨1, 18⟩⟩, ⟨.op, ".", ⟨1, 21⟩⟩, ⟨.ident, "e", ⟨1, 22⟩⟩, ⟨.op, "?.", ⟨1, 23⟩⟩,
    ⟨.op, "?", ⟨1, 25⟩⟩, ⟨.keyword, "in", ⟨1, 26⟩⟩, ⟨.string, "a\n", ⟨1, 29⟩⟩, .endAt ⟨1, 35⟩]

theorem scan_takes_apart_dotted :
    scan dottedSource = .ok dottedTokens ∧ ∃ items q, Begins dottedSource.toList items [] ∧
      dottedTokens = items.filterMap Item.token? ++ [endAt q] :=
  ⟨rfl, scan_takes_apart rfl⟩

end Snack.Token
