import Snack.Proofs.Number.Layout
import Snack.Proofs.Script.Lines
import Snack.Proofs.Script.Quoted

/-! Reading the brackets of a script. Parentheses, square brackets and braces are closed in the order in which
they were opened, and in a string literal they do not count. A text can be read as part of another one if it
leaves alone what was open before it. -/

namespace Snack.Script

open Snack.Core
open Token (Word isWordChar)

/-! ### The reader -/

/-- Where a reader is: outside of literals, in one, or behind a backslash in one. -/
inductive Mode where
  | code
  | quoted
  | escaped
  deriving DecidableEq

/-- A reader with what closes the brackets that are open, the innermost one first. -/
structure Reader where
  mode : Mode
  closers : List Char
  deriving DecidableEq

namespace Reader

def start : Reader := ⟨.code, []⟩

/-- Reads a character outside of literals. A bracket that closes has to be the one that is waited for. -/
def readCode (ds : List Char) (c : Char) : Option Reader :=
  if c = '"' then some ⟨.quoted, ds⟩
  else if c = '(' then some ⟨.code, ')' :: ds⟩
  else if c = '[' then some ⟨.code, ']' :: ds⟩
  else if c = '\x7b' then some ⟨.code, '\x7d' :: ds⟩
  else if c ∈ [')', ']', '\x7d'] then
    if ds.head? = some c then some ⟨.code, ds.tail⟩ else none
  else some ⟨.code, ds⟩

/-- Reads a character of a literal. -/
def readQuoted (ds : List Char) (c : Char) : Reader :=
  if c = '\\' then ⟨.escaped, ds⟩
  else if c = '"' then ⟨.code, ds⟩
  else ⟨.quoted, ds⟩

def read (r : Reader) (c : Char) : Option Reader :=
  match r.mode with
  | .code => readCode r.closers c
  | .quoted => some (readQuoted r.closers c)
  | .escaped => some ⟨.quoted, r.closers⟩

/-- Reads a text, unless a bracket in it closes nothing. -/
def readAll (r : Reader) : List Char → Option Reader
  | [] => some r
  | c :: cs => (r.read c).bind fun r => r.readAll cs

theorem readAll_append (r : Reader) (xs ys : List Char) :
    r.readAll (xs ++ ys) = (r.readAll xs).bind fun r => r.readAll ys := by
  induction xs generalizing r with
  | nil => rfl
  | cons c xs ih =>
    simp only [List.cons_append, readAll, Option.bind_assoc]
    exact Option.bind_congr fun r _ => ih r

end Reader

/-- Every bracket outside of literals has its partner, and every literal ends. -/
def Balanced (text : String) : Prop := Reader.start.readAll text.toList = some .start

instance (text : String) : Decidable (Balanced text) :=
  inferInstanceAs (Decidable (Reader.start.readAll text.toList = some .start))

/-! ### Texts between brackets -/

/-- A text in a line that finds the brackets `ds` open and leaves `es` open, whatever is open around them. -/
structure Leads (ds : List Char) (text : String) (es : List Char) : Prop where
  inline : Inline text
  reads : ∀ ks, Reader.readAll ⟨.code, ds ++ ks⟩ text.toList = some ⟨.code, es ++ ks⟩

/-- A text at the head of a line, with what it tells there. -/
structure Phrase (ds : List Char) (text : String) (es : List Char) (ms : List (Mark String)) : Prop
  extends Leads ds text es, Tells text ms

/-- A text that closes what it opens and tells nothing. -/
abbrev Nested (text : String) : Prop := Phrase [] text [] []

section Texts

variable {a b text : String} {ds es fs : List Char} {ms : List (Mark String)}

theorem Leads.append (ha : Leads ds a es) (hb : Leads es b fs) : Leads ds (a ++ b) fs where
  inline := ha.inline.append hb.inline
  reads ks := by
    rw [String.toList_append, Reader.readAll_append, ha.reads]
    exact hb.reads ks

/-- Brackets that are open around a text are open behind it. -/
theorem Leads.inside (h : Leads ds text es) (ks : List Char) : Leads (ds ++ ks) text (es ++ ks) where
  inline := h.inline
  reads fs := by
    rw [List.append_assoc, List.append_assoc]
    exact h.reads (ks ++ fs)

theorem Phrase.append (ha : Phrase ds a es ms) (hb : Leads es b fs) : Phrase ds (a ++ b) fs ms where
  toLeads := ha.toLeads.append hb
  toTells := ha.toTells.append

/-- With nothing open before it a text begins with no end of a block. -/
theorem Leads.head_ne (h : Leads [] text es) : text.toList.head? ≠ some '\x7d' := by
  intro hhead
  obtain ⟨cs, htext⟩ : ∃ cs, text.toList = '\x7d' :: cs := List.head?_eq_some_iff.1 hhead
  have hreads := h.reads []
  rw [htext] at hreads
  cases hreads

theorem Nested.within (h : Nested text) : Leads ds text ds := h.toLeads.inside ds

/-- The characters that a reader looks at, and the line feed. -/
def signs : List Char := ['"', '(', ')', '[', ']', '\x7b', '\x7d', '\n']

def isPlain (c : Char) : Bool := c ∉ signs

theorem readAll_plain {cs : List Char} (h : ∀ c ∈ cs, isPlain c = true) :
    Reader.readAll ⟨.code, ds⟩ cs = some ⟨.code, ds⟩ := by
  induction cs with
  | nil => rfl
  | cons c cs ih =>
    obtain ⟨hc, hcs⟩ := List.forall_mem_cons.1 h
    have hread : Reader.readCode ds c = some ⟨.code, ds⟩ := by
      simp only [isPlain, signs, List.mem_cons, List.not_mem_nil, or_false, not_or, decide_eq_true_eq] at hc
      simp [Reader.readCode, hc]
    rw [Reader.readAll, Reader.read, hread]
    exact ih hcs

theorem leads_plain (h : text.toList.all isPlain = true) : Leads ds text ds := by
  rw [List.all_eq_true] at h
  refine ⟨?_, fun ks => readAll_plain h⟩
  rintro c hc rfl
  exact absurd (h _ hc) (by decide)

/-- Characters of a kind to which no sign belongs. -/
theorem leads_of_kind {q : Char → Bool} (hq : signs.all (fun c => !q c) = true)
    (h : ∀ c ∈ text.toList, q c = true) : Leads ds text ds := by
  refine leads_plain (List.all_eq_true.2 fun c hc => ?_)
  have hnot : c ∉ signs := by
    intro hmem
    have hfalse := List.all_eq_true.1 hq c hmem
    simp [h c hc] at hfalse
  simpa [isPlain] using hnot

theorem leads_word (h : Word text) : Leads ds text ds := leads_of_kind (by decide) h

theorem leads_commaSeparated {texts : List String} (h : ∀ t ∈ texts, Leads ds t ds) :
    Leads ds (commaSeparated texts) ds := by
  induction texts with
  | nil => exact leads_plain rfl
  | cons t ts ih =>
    obtain ⟨ht, hts⟩ := List.forall_mem_cons.1 h
    cases ts with
    | nil => simpa [commaSeparated] using ht
    | cons u us =>
      have hcons : commaSeparated (t :: u :: us) = t ++ ", " ++ commaSeparated (u :: us) := by
        simp [commaSeparated]
      rw [hcons]
      exact (ht.append (leads_plain (by decide))).append (ih hts)

theorem leads_parenthesis : Leads ds "(" (')' :: ds) := ⟨by decide, fun _ => rfl⟩

theorem leads_closed : Leads (')' :: ds) ")" ds := ⟨by decide, fun _ => rfl⟩

theorem nested_parenthesized (h : Leads [')'] text [')']) : Nested ("(" ++ text ++ ")") := by
  have hopen : Phrase [] "(" [')'] [] := ⟨leads_parenthesis, by decide, fun _ => rfl⟩
  exact (hopen.append h).append leads_closed

theorem nested_bracketed (h : Leads [']'] text [']']) : Nested ("[" ++ text ++ "]") := by
  have hopen : Phrase [] "[" [']'] [] := ⟨⟨by decide, fun _ => rfl⟩, by decide, fun _ => rfl⟩
  have hclose : Leads [']'] "]" [] := ⟨by decide, fun _ => rfl⟩
  exact (hopen.append h).append hclose

end Texts

/-! ### Literals -/

/-- A number, with or without a minus sign. -/
theorem nested_spelling {cs : List Char} (h : Numeral.Spelling cs) :
    Nested (.ofList cs) ∧ Nested (.ofList ('-' :: cs)) := by
  have hleads {ds : List Char} (hds : ∀ c ∈ ds, Numeral.inNumber c = true) : Leads [] (.ofList ds) [] :=
    leads_of_kind (q := Numeral.inNumber) (by decide) (by simpa using hds)
  obtain ⟨c, ds, rfl, hc⟩ := h.cons
  exact ⟨⟨hleads h.inNumber, tells_of_isQuiet String.toList_ofList (isQuiet_of_isDigit hc)⟩,
    ⟨hleads (List.forall_mem_cons.2 ⟨rfl, h.inNumber⟩), tells_of_isQuiet String.toList_ofList (by decide)⟩⟩

theorem nested_nat (n : Nat) : Nested (toString n) := by
  rw [Nat.toString_eq_ofList_toDigits]
  exact (nested_spelling (Shortest.digits_toDigits n).spelling).1

theorem nested_infinity (negative : Bool) : Nested (infinity negative) := by
  cases negative with
  | true => exact ⟨⟨by decide, fun _ => rfl⟩, by decide, fun _ => rfl⟩
  | false => exact ⟨⟨by decide, fun _ => rfl⟩, by decide, fun _ => rfl⟩

theorem nested_intLiteral (n : Int) : Nested (intLiteral n) := by
  unfold intLiteral
  split
  · exact nested_infinity _
  · cases n with
    | ofNat n =>
      rw [if_neg (by simp)]
      exact nested_nat n
    | negSucc n =>
      rw [if_pos (Int.negSucc_lt_zero n)]
      have hsign : Leads [')'] "-" [')'] := leads_plain (by decide)
      exact nested_parenthesized (hsign.append (nested_nat (n + 1)).within)

theorem nested_text (x : Float) : Nested (Shortest.text x) := by
  unfold Shortest.text
  dsimp only
  split
  · exact ⟨⟨by decide, fun _ => rfl⟩, by decide, fun _ => rfl⟩
  · exact ⟨⟨by decide, fun _ => rfl⟩, by decide, fun _ => rfl⟩
  · exact ⟨⟨by decide, fun _ => rfl⟩, by decide, fun _ => rfl⟩
  · split
    · exact ⟨⟨by decide, fun _ => rfl⟩, by decide, fun _ => rfl⟩
    · exact ⟨⟨by decide, fun _ => rfl⟩, by decide, fun _ => rfl⟩
  · split
    · exact (nested_spelling (Shortest.spelling_layout _ _)).1
    · exact (nested_spelling (Shortest.spelling_layout _ _)).2

theorem nested_floatLiteral (x : Float) : Nested (floatLiteral x) := by
  unfold floatLiteral
  split
  · exact nested_infinity _
  · exact nested_infinity _
  · exact nested_parenthesized (nested_text x).within
  · exact nested_text x

/-- What is written for a character of a string never ends the literal. -/
theorem readAll_escaped (ds : List Char) (c : Char) :
    Reader.readAll ⟨.quoted, ds⟩ (escaped c) = some ⟨.quoted, ds⟩ := by
  unfold escaped
  split
  case h_6 hslash hquote _ _ _ =>
    rw [Reader.readAll, Reader.read, Reader.readQuoted, if_neg hslash, if_neg hquote]
    rfl
  all_goals rfl

theorem readAll_flatMap_escaped (ds cs : List Char) :
    Reader.readAll ⟨.quoted, ds⟩ (cs.flatMap escaped) = some ⟨.quoted, ds⟩ := by
  induction cs with
  | nil => rfl
  | cons c cs ih =>
    rw [List.flatMap_cons, Reader.readAll_append, readAll_escaped]
    exact ih

theorem nested_stringLiteral (s : String) : Nested (stringLiteral s) where
  inline := fun _ hc h => inline_stringLiteral s (h ▸ hc)
  reads ks := by
    rw [toList_stringLiteral, Reader.readAll]
    show Reader.readAll ⟨.quoted, ks⟩ _ = _
    rw [Reader.readAll_append, readAll_flatMap_escaped]
    rfl
  toTells := tells_of_isQuiet (toList_stringLiteral s) (by decide)

end Snack.Script
