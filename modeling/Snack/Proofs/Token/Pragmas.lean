import Snack.Pragma
import Snack.Proofs.Token.Joined

/-! Pragmas and tokens. Pragmas are looked for line by line, with blanks of every script around them; tokens
are read character by character, with a few blanks between them. Where a text can be read, the two agree: a
line that counts as a pragma is a line comment, and all tokens stand below it. -/

namespace Snack

/-- A text is what stands between its blanks at both ends. -/
theorem Text.strip_between (cs : List Char) :
    ∃ left right, cs = left ++ (strip cs ++ right) ∧ ∀ c ∈ left ++ right, isBlank c = true := by
  let inner := cs.dropWhile isBlank
  refine ⟨cs.takeWhile isBlank, (inner.reverse.takeWhile isBlank).reverse, ?_, ?_⟩
  · have hinner : inner = strip cs ++ (inner.reverse.takeWhile isBlank).reverse := by
      rw [strip, ← List.reverse_append, List.takeWhile_append_dropWhile, List.reverse_reverse]
    rw [← hinner, List.takeWhile_append_dropWhile]
  · intro c hc
    rw [List.mem_append, List.mem_reverse] at hc
    rcases hc with hc | hc
    · exact List.all_eq_true.1 List.all_takeWhile c hc
    · exact List.all_eq_true.1 List.all_takeWhile c hc

namespace Token

/-- A text in lines. -/
inductive Lines : List (List Char) → List Char → Prop where
  | last {line} (hline : '\n' ∉ line) : Lines [line] line
  | more {line lines cs} (hline : '\n' ∉ line) (h : Lines lines cs) : Lines (line :: lines) (line ++ '\n' :: cs)

/-- What a line that is blank, or blank up to a line comment, is read as. -/
inductive Quiet : List Char → List Item → Prop where
  | blank {line} (h : ∀ c ∈ line, Text.isBlank c = true) : Quiet line (line.map .blank)
  | comment {indent body} (h : ∀ c ∈ indent, Text.isBlank c = true) :
      Quiet (indent ++ lineComment :: body) (indent.map .blank ++ [.line body])

variable {p q : Pos} {c : Char} {cs line body tail : List Char} {items : List Item} {π : Pragma}

/-! ### First characters -/

theorem isBlank_of_isWordChar (h : isWordChar c = true) : Text.isBlank c = false := by
  have hle : ∀ a b : Char, a ≤ b ↔ a.toNat ≤ b.toNat := fun a b => Char.le_def
  have hrange : 48 ≤ c.toNat ∧ c.toNat ≤ 122 := by
    simp [isWordChar, isLetter, isDigit, hle] at h
    rcases h with ((h | h) | rfl) | h
    · omega
    · omega
    · decide
    · omega
  simp [Text.isBlank, Text.blankRanges]
  omega

/-- No lexeme begins with a blank of any script, nor with the mark of a line comment. -/
theorem Lexes.opens {kind : Kind} {text : String} (h : Lexes kind text (c :: cs)) :
    Text.isBlank c = false ∧ c ≠ lineComment := by
  have hword : ∀ d, isWordChar d = true → Text.isBlank d = false ∧ d ≠ lineComment := by
    intro d hd
    refine ⟨isBlank_of_isWordChar hd, ?_⟩
    rintro rfl
    exact absurd hd (by decide)
  generalize hlist : c :: cs = lexeme at h
  cases h with
  | number h =>
    obtain ⟨hw, -, -⟩ := h
    obtain ⟨d, ds, rfl⟩ := List.exists_cons_of_ne_nil hw.ne_nil
    cases hlist
    have hc : isDigit c = true := hw.all _ List.mem_cons_self
    apply hword
    simp [isWordChar, hc]
  | ident hc =>
    cases hlist
    apply hword
    simp [isWordChar, hc]
  | string | inside =>
    cases hlist
    decide
  | keyword h =>
    cases hlist
    have hall : Keyword.symbols.all (fun c => !Text.isBlank c && c != lineComment) = true := by decide
    simpa using List.all_eq_true.1 hall c h
  | type p =>
    cases hlist
    cases p <;> decide
  | op h =>
    have hall : operators.all (fun cs => cs.head?.all fun c => !Text.isBlank c && c != lineComment) = true := by
      decide
    simpa [← hlist] using List.all_eq_true.1 hall _ h

/-! ### Lines without a token -/

theorem lines_splitOn (cs : List Char) : Lines (cs.splitOn '\n') cs := by
  induction cs with
  | nil => exact .last (by simp)
  | cons c cs ih =>
    rw [List.splitOn_cons_eq_if_modifyHead]
    by_cases hc : c = '\n'
    · subst hc
      exact @Lines.more [] _ cs (by simp) ih
    · have hne : ∀ line : List Char, '\n' ∉ line → '\n' ∉ c :: line := by
        intro line hline
        simp [hline, Ne.symm hc]
      rw [if_neg (by simpa using hc)]
      generalize cs.splitOn '\n' = lines at ih
      cases ih with
      | last hline => exact .last (hne _ hline)
      | more hline h => exact .more (hne _ hline) h

theorem flatMap_text_blanks (cs : List Char) : (cs.map Item.blank).flatMap Item.text = cs := by
  induction cs with
  | nil => rfl
  | cons c cs ih => simp [Item.text, ih]

theorem filterMap_token?_blanks (cs : List Char) : (cs.map Item.blank).filterMap Item.token? = [] := by
  induction cs with
  | nil => rfl
  | cons c cs ih => simp [Item.token?]

theorem Quiet.text (h : Quiet line items) : items.flatMap Item.text = line := by
  cases h with
  | blank => exact flatMap_text_blanks line
  | comment => simp [flatMap_text_blanks, Item.text]

theorem Quiet.tokens (h : Quiet line items) : items.filterMap Item.token? = [] := by
  cases h with
  | blank => exact filterMap_token?_blanks line
  | comment => rw [List.filterMap_append, filterMap_token?_blanks]; rfl

/-- A blank of any script that can be read is a blank between tokens. -/
theorem Walk.blank (h : Walk p (c :: cs) items q []) (hc : Text.isBlank c = true) :
    ∃ rest, items = .blank c :: rest ∧ Walk (p.after c) cs rest q [] := by
  generalize hlist : c :: cs = full at h
  cases h with
  | nil => simp at hlist
  | @cons _ cs' x rest _ _ hfits hpos h =>
    cases x with
    | blank d =>
      cases hlist
      exact ⟨rest, rfl, h⟩
    | line | block =>
      cases hlist
      exact absurd hc (by decide)
    | token t lexeme =>
      obtain ⟨d, ds, rfl⟩ := List.exists_cons_of_ne_nil hfits.1.ne_nil
      cases hlist
      rw [hfits.1.opens.1] at hc
      contradiction

theorem Walk.blanks (h : Walk p (line ++ tail) items q []) (hline : ∀ c ∈ line, Text.isBlank c = true) :
    ∃ rest, items = line.map .blank ++ rest ∧ Walk (p.afterAll line) tail rest q [] := by
  induction line generalizing p items with
  | nil => exact ⟨items, rfl, h⟩
  | cons c line ih =>
    rw [List.forall_mem_cons] at hline
    obtain ⟨behind, rfl, hbehind⟩ := h.blank hline.1
    obtain ⟨rest, rfl, hrest⟩ := ih hbehind hline.2
    exact ⟨rest, rfl, hrest⟩

theorem takeWhile_inline (hbody : '\n' ∉ body) (htail : ∀ c ∈ tail.head?, c = '\n') :
    (body ++ tail).takeWhile (· != '\n') = body := by
  have hall : ∀ c ∈ body, (c != '\n') = true := by
    intro c hc
    rw [bne_iff_ne]
    rintro rfl
    exact hbody hc
  rw [List.takeWhile_append_of_pos hall]
  cases tail with
  | nil => simp
  | cons c tail =>
    obtain rfl := htail c rfl
    simp

/-- The mark of a line comment begins one that takes the rest of the line. -/
theorem Walk.comment (h : Walk p (lineComment :: (body ++ tail)) items q []) (hbody : '\n' ∉ body)
    (htail : ∀ c ∈ tail.head?, c = '\n') : ∃ rest, items = .line body :: rest ∧ Walk p tail rest q [] := by
  generalize hlist : lineComment :: (body ++ tail) = full at h
  cases h with
  | nil => simp at hlist
  | @cons _ cs' x rest _ _ hfits hpos h =>
    cases x with
    | blank d =>
      obtain ⟨rfl, -⟩ := List.cons.inj hlist
      exact absurd (show isBlank lineComment = true from hfits) (by decide)
    | line body' =>
      have hsame : body ++ tail = body' ++ cs' := (List.cons.inj hlist).2
      obtain rfl : body = body' := by
        rw [← takeWhile_inline hbody htail, hsame, takeWhile_inline hfits.1 hfits.2]
      obtain rfl : tail = cs' := List.append_cancel_left hsame
      exact ⟨rest, rfl, h⟩
    | block => exact absurd (List.cons.inj hlist).1 (by decide)
    | token t lexeme =>
      obtain ⟨d, ds, rfl⟩ := List.exists_cons_of_ne_nil hfits.1.ne_nil
      obtain ⟨rfl, -⟩ := List.cons.inj hlist
      exact absurd rfl hfits.1.opens.2

/-- Behind a line without a token, reading is at the end of that line. -/
theorem Walk.quiet {front : List Item} (h : Walk p (line ++ tail) items q []) (hquiet : Quiet line front)
    (hline : '\n' ∉ line) (htail : ∀ c ∈ tail.head?, c = '\n') :
    ∃ rest r, items = front ++ rest ∧ r.line = p.line ∧ Walk r tail rest q [] := by
  cases hquiet with
  | blank hblank =>
    obtain ⟨rest, rfl, hrest⟩ := h.blanks hblank
    refine ⟨rest, p.afterAll line, rfl, ?_, hrest⟩
    rw [afterAll_inline hline]
  | @comment indent body hblank =>
    rw [List.mem_append, List.mem_cons, not_or, not_or] at hline
    rw [List.append_assoc] at h
    obtain ⟨behind, rfl, hbehind⟩ := h.blanks hblank
    obtain ⟨rest, rfl, hrest⟩ := hbehind.comment hline.2.2 htail
    refine ⟨rest, p.afterAll indent, by simp, ?_, hrest⟩
    rw [afterAll_inline hline.1]

theorem Walk.feed (h : Walk p ('\n' :: cs) items q []) :
    ∃ rest r, items = .blank '\n' :: rest ∧ r.line = p.line + 1 ∧ Walk r cs rest q [] := by
  obtain ⟨rest, rfl, hrest⟩ := h.blank (by decide)
  exact ⟨rest, p.after '\n', rfl, by simp [Pos.after], hrest⟩

/-- Where a line ends, all tokens to come are below it. -/
theorem Walk.tokens_below (h : Walk p tail items q []) (htail : ∀ c ∈ tail.head?, c = '\n') :
    ∀ t ∈ items.filterMap Item.token?, p.line < t.pos.line := by
  cases tail with
  | nil =>
    generalize hlist : [] = full at h
    cases h with
    | nil => simp
    | cons hfits => simp [Item.text_ne_nil hfits] at hlist
  | cons c tail =>
    obtain rfl := htail c rfl
    obtain ⟨rest, r, rfl, hr, hrest⟩ := h.feed
    intro t ht
    have hline := (hrest.lines.2 t ht).1
    omega

end Token

/-! ### Lines with a pragma -/

/-- How a pragma is written in a line comment, with `indent` before the mark and `body` behind it. -/
structure Pragma.Spelled (π : Pragma) (indent body : List Char) : Prop where
  indent : ∀ c ∈ indent, Text.isBlank c = true
  body : ∃ left right, body = left ++ (π.text.toList ++ right) ∧ ∀ c ∈ left ++ right, Text.isBlank c = true

open Token in
/-- A pragma is found in the first line, or below it if that line holds no code. -/
theorem Pragma.mem_ofLines_cons {π : Pragma} {line : List Char} {below : List (List Char)}
    (h : π ∈ ofLines (line :: below)) :
    (∃ indent body, line = indent ++ lineComment :: body ∧ π.Spelled indent body) ∨
      ∃ front, Quiet line front ∧ π ∈ ofLines below := by
  obtain ⟨left, right, hline, hblank⟩ := Text.strip_between line
  rw [List.forall_mem_append] at hblank
  rw [ofLines] at h
  split at h
  · next hstrip =>
    right
    refine ⟨_, .blank ?_, h⟩
    rw [hline, hstrip]
    simpa [or_imp, forall_and] using hblank
  · next c inner hstrip =>
    rw [hstrip] at hline
    by_cases hc : c = lineComment
    · subst hc
      have hbody : line = left ++ lineComment :: (inner ++ right) := by simpa using hline
      rw [if_pos rfl, List.mem_append, Option.mem_toList] at h
      rcases h with h | h
      · left
        refine ⟨left, inner ++ right, hbody, hblank.1, ?_⟩
        have htext : π.text.toList = Text.strip inner := by simpa using List.find?_some h
        obtain ⟨left', right', hinner, hblank'⟩ := Text.strip_between inner
        refine ⟨left', right' ++ right, ?_, ?_⟩
        · conv_lhs => rw [hinner]
          simp [htext]
        · simp only [List.forall_mem_append] at hblank' ⊢
          exact ⟨hblank'.1, hblank'.2, hblank.2⟩
      · right
        rw [hbody]
        exact ⟨_, .comment hblank.1, h⟩
    · simp [hc] at h

namespace Token

/-- A text in these lines, read as these items, has a pragma below `n` lines without a token. -/
inductive Leads (π : Pragma) : Nat → List (List Char) → List Item → Prop where
  | mk {above below indent body front rest} (hspelled : π.Spelled indent body)
      (htext : front.flatMap Item.text = above.flatMap (· ++ ['\n']) ++ indent)
      (htokens : front.filterMap Item.token? = []) :
      Leads π above.length (above ++ (indent ++ lineComment :: body) :: below) (front ++ .line body :: rest)

variable {π : Pragma} {p q : Pos} {lines : List (List Char)} {line cs tail : List Char} {items : List Item}

theorem Leads.here {indent body : List Char} (hspelled : π.Spelled indent body) (below : List (List Char))
    (rest : List Item) :
    Leads π 0 ((indent ++ lineComment :: body) :: below) (indent.map .blank ++ .line body :: rest) := by
  have htext : (indent.map Item.blank).flatMap Item.text = [].flatMap (· ++ ['\n']) ++ indent :=
    flatMap_text_blanks indent
  exact .mk hspelled htext (filterMap_token?_blanks indent)

theorem Leads.down {n : Nat} {front : List Item} (h : Leads π n lines items) (hquiet : Quiet line front) :
    Leads π (n + 1) (line :: lines) (front ++ .blank '\n' :: items) := by
  obtain @⟨above, below, indent, body, before, rest, hspelled, htext, htokens⟩ := h
  have hfront : (front ++ .blank '\n' :: before).flatMap Item.text =
      (line :: above).flatMap (· ++ ['\n']) ++ indent := by
    simp [hquiet.text, htext, Item.text]
  have hbefore : (front ++ .blank '\n' :: before).filterMap Item.token? = [] := by
    rw [List.filterMap_append, hquiet.tokens]
    exact htokens
  have hlead : Leads π _ _ _ := @Leads.mk π _ below _ _ _ rest hspelled hfront hbefore
  simpa using hlead

/-- A pragma in this line, whatever follows the line. -/
theorem Walk.leads_here {indent body : List Char} {below : List (List Char)} (h : Walk p (line ++ tail) items q [])
    (hline : '\n' ∉ line) (htail : ∀ c ∈ tail.head?, c = '\n') (hbody : line = indent ++ lineComment :: body)
    (hspelled : π.Spelled indent body) :
    ∃ n : Nat, Leads π n (line :: below) items ∧
      ∀ t ∈ items.filterMap Item.token?, p.line + n < t.pos.line := by
  subst hbody
  have hquiet : Quiet (indent ++ lineComment :: body) _ := .comment hspelled.indent
  obtain ⟨rest, r, rfl, hr, hrest⟩ := h.quiet hquiet hline htail
  refine ⟨0, ?_, ?_⟩
  · simpa using Leads.here hspelled below rest
  · rw [List.filterMap_append, hquiet.tokens, List.nil_append]
    simpa [hr] using hrest.tokens_below htail

theorem Walk.leads (h : Walk p cs items q []) (hlines : Lines lines cs) (hπ : π ∈ Pragma.ofLines lines) :
    ∃ n : Nat, Leads π n lines items ∧ ∀ t ∈ items.filterMap Item.token?, p.line + n < t.pos.line := by
  induction hlines generalizing p items with
  | @last line hline =>
    rcases Pragma.mem_ofLines_cons hπ with ⟨indent, body, hbody, hspelled⟩ | ⟨front, -, hbelow⟩
    · have hwalk : Walk p (line ++ []) items q [] := by rwa [List.append_nil]
      exact hwalk.leads_here hline (by simp) hbody hspelled
    · simp [Pragma.ofLines] at hbelow
  | @more line lines cs hline hlines ih =>
    rcases Pragma.mem_ofLines_cons hπ with ⟨indent, body, hbody, hspelled⟩ | ⟨front, hquiet, hbelow⟩
    · exact h.leads_here hline (by simp) hbody hspelled
    · -- both readings go on in the next line, so it is one more line above the pragma
      obtain ⟨behind, r, rfl, hr, hbehind⟩ := h.quiet hquiet hline (by simp)
      obtain ⟨rest, s, rfl, hs, hrest⟩ := hbehind.feed
      obtain ⟨n, hleads, htokens⟩ := ih hrest hbelow
      refine ⟨n + 1, hleads.down hquiet, ?_⟩
      intro t ht
      rw [List.filterMap_append, hquiet.tokens] at ht
      have hbelow := htokens t ht
      push_cast
      omega

/-- In a text that can be read, a pragma that is found has a line to itself, of blanks, the mark of a comment
and its text. What is read there is a line comment, and every token but the end is on a later line. -/
theorem pragma_above_tokens {source : String} {ts : List Token} (h : scan source = .ok ts)
    (hπ : π ∈ Pragma.ofSource source) :
    ∃ (items : List Item) (q : Pos) (n : Nat),
      Walk .start source.toList items q [] ∧ ts = items.filterMap Item.token? ++ [endAt q] ∧
        Leads π n (source.toList.splitOn '\n') items ∧
          ∀ t ∈ ts, t.kind ≠ .eof → (n : Int) + 1 < t.pos.line := by
  have hrun : Run .start source.toList (scan source) := run_scanFrom (Nat.le_refl _)
  rw [h] at hrun
  cases hrun with
  | @tokens items q hwalk =>
    obtain ⟨n, hleads, htokens⟩ := hwalk.leads (lines_splitOn _) hπ
    refine ⟨items, q, n, hwalk, rfl, hleads, ?_⟩
    intro t ht hkind
    rw [List.mem_append, List.mem_singleton] at ht
    rcases ht with ht | rfl
    · have hbelow := htokens t ht
      simp only [Pos.start] at hbelow
      omega
    · exact absurd rfl hkind

/-- A comment that looks like a block comment, blanks of several scripts, and another pragma too late. -/
def spacedSource : String :=
  " \r\n🍦 a 🍨 b\n\t🍦\u3000pragma mangle-by-name\u2003\n\n x 🍨\n🍨 1\n🍦 pragma no-optimize"

def spacedTokens : List Token := [⟨.ident, "x", ⟨5, 2⟩⟩, ⟨.number, "1", ⟨6, 3⟩⟩, endAt ⟨7, 1⟩]

theorem pragma_above_tokens_spaced :
    scan spacedSource = .ok spacedTokens ∧ Pragma.mangleByName ∈ Pragma.ofSource spacedSource ∧
      ∃ (items : List Item) (q : Pos) (n : Nat),
        Walk .start spacedSource.toList items q [] ∧ spacedTokens = items.filterMap Item.token? ++ [endAt q] ∧
          Leads .mangleByName n (spacedSource.toList.splitOn '\n') items ∧
            ∀ t ∈ spacedTokens, t.kind ≠ .eof → (n : Int) + 1 < t.pos.line := by
  have hmem : Pragma.mangleByName ∈ Pragma.ofSource spacedSource := by decide
  exact ⟨rfl, hmem, pragma_above_tokens rfl hmem⟩

end Token

end Snack
