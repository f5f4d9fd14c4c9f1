import Snack.Proofs.Core.Blocks
import Snack.Proofs.Core.Spelled

/-! Reading the blocks of a script off its text. A line that begins with a closing brace ends a block, one
that ends with an opening brace begins one, and what is declared stands behind a word at the head of its
line. Nothing else of a line is looked at, so what an expression is written as tells the reader nothing. -/

namespace Snack.Script

open Snack.Core
open Token (Word isWordChar)

/-! ### The reader -/

/-- What stands before the name in a declaration. -/
def declarators : List (List Char) := ["let ".toList, "function ".toList, "class ".toList]

/-- The name that is declared at the head of a line. -/
def declared? (cs : List Char) : Option String :=
  (declarators.find? fun d => d.isPrefixOf cs).map fun d =>
    .ofList ((cs.drop d.length).takeWhile isWordChar)

/-- What the head of a line tells. -/
def headMarks (cs : List Char) : List (Mark String) :=
  (if cs.head? = some '\x7d' then [.closes] else []) ++ (declared? cs).toList.map .declares

/-- What a line tells. -/
def marksOf (line : List Char) : List (Mark String) :=
  headMarks (line.dropWhile (· == ' ')) ++ if line.getLast? = some '\x7b' then [.opens] else []

/-- The blocks of a text, each as the names that are declared in it. The last one is the text itself. -/
def blocks (text : String) : List (List String) :=
  collect [[]] ((text.toList.splitOn '\n').flatMap marksOf)

/-! ### Texts in a line -/

/-- A text that stays in its line. -/
def Inline (text : String) : Prop := ∀ c ∈ text.toList, c ≠ '\n'

instance (text : String) : Decidable (Inline text) :=
  List.decidableBAll _ _

/-- A text at the head of a line. No blank comes first, and whatever follows, the line tells this. -/
structure Tells (text : String) (ms : List (Mark String)) : Prop where
  solid : text.toList.head?.any (· != ' ') = true
  head : ∀ tail, headMarks (text.toList ++ tail) = ms

def Ends (c : Char) (text : String) : Prop := text.toList.getLast? = some c

instance (c : Char) (text : String) : Decidable (Ends c text) :=
  inferInstanceAs (Decidable (text.toList.getLast? = some c))

/-- The text of a line at a depth. -/
def indent (d : Nat) (text : String) : String := .ofList (List.replicate (2 * d) ' ') ++ text

section Texts

variable {a b text : String} {ms : List (Mark String)} {c : Char}

theorem Inline.append (ha : Inline a) (hb : Inline b) : Inline (a ++ b) := by
  rw [Inline, String.toList_append]
  exact List.forall_mem_append.2 ⟨ha, hb⟩

theorem Tells.cons (h : Tells text ms) : ∃ c cs, text.toList = c :: cs ∧ c ≠ ' ' := by
  have hsolid := h.solid
  cases htext : text.toList with
  | nil => simp [htext] at hsolid
  | cons c cs => exact ⟨c, cs, rfl, by simpa [htext] using hsolid⟩

theorem Tells.append (h : Tells a ms) : Tells (a ++ b) ms where
  solid := by
    obtain ⟨c, cs, ha, hc⟩ := h.cons
    simp [ha, hc]
  head tail := by
    rw [String.toList_append, List.append_assoc]
    exact h.head _

theorem Ends.append (h : Ends c b) : Ends c (a ++ b) := by
  have h : b.toList.getLast? = some c := h
  rw [Ends, String.toList_append, List.getLast?_append, h]
  rfl

/-- What a line tells: the blanks before its text do not count. -/
theorem Tells.marksOf_indent (h : Tells text ms) (he : Ends c text) (d : Nat) :
    marksOf (indent d text).toList = ms ++ if c = '\x7b' then [.opens] else [] := by
  obtain ⟨x, xs, htext, hx⟩ := h.cons
  have hlast : (indent d text).toList.getLast? = some c := Ends.append he
  have hhead : headMarks text.toList = ms := by simpa using h.head []
  have hblank : ∀ y ∈ List.replicate (2 * d) ' ', (y == ' ') = true := by simp
  have hdrop : (indent d text).toList.dropWhile (· == ' ') = text.toList := by
    rw [indent, String.toList_append, String.toList_ofList, List.dropWhile_append_of_pos hblank, htext,
      List.dropWhile_cons_of_neg (by simpa using hx)]
  simp only [marksOf, hlast, hdrop, hhead, Option.some.injEq]

end Texts

/-! ### Heads of lines -/

section Heads

variable {text : String} {c : Char} {cs : List Char}

theorem forall_declarators {p : List Char → Prop} :
    (∀ d ∈ declarators, p d) ↔ p "let ".toList ∧ p "function ".toList ∧ p "class ".toList := by
  rw [declarators, List.forall_mem_cons, List.forall_mem_cons, List.forall_mem_singleton]

theorem declared?_eq_none (h : ∀ d ∈ declarators, ¬ d <+: cs) : declared? cs = none := by
  rw [declared?, List.find?_eq_none.2 fun d hd hpre => h d hd (List.isPrefixOf_iff_prefix.1 hpre)]
  rfl

/-- A character that begins neither a declaration nor the end of a block. -/
def isQuiet (c : Char) : Bool := c ∉ [' ', '\x7d', 'l', 'f', 'c']

theorem tells_nothing (h : text.toList = c :: cs) (hc : c ≠ ' ' ∧ c ≠ '\x7d')
    (hnone : ∀ tail, declared? (text.toList ++ tail) = none) : Tells text [] where
  solid := by simp [h, hc.1]
  head tail := by
    rw [headMarks, hnone, h, List.cons_append, List.head?_cons, if_neg (by simpa using hc.2)]
    rfl

theorem tells_of_isQuiet (h : text.toList = c :: cs) (hc : isQuiet c = true) : Tells text [] := by
  have hne : ∀ x ∈ [' ', '\x7d', 'l', 'f', 'c'], c ≠ x := by
    rintro x hx rfl
    simp [isQuiet, hx] at hc
  refine tells_nothing h ⟨hne ' ' (by decide), hne '\x7d' (by decide)⟩ fun tail => ?_
  refine declared?_eq_none fun d hd hpre => ?_
  have hhead : ∀ d ∈ declarators, ∃ x ∈ [' ', '\x7d', 'l', 'f', 'c'], d.head? = some x :=
    forall_declarators.2 ⟨⟨'l', by decide, rfl⟩, ⟨'f', by decide, rfl⟩, ⟨'c', by decide, rfl⟩⟩
  obtain ⟨x, hx, hd⟩ := hhead d hd
  obtain ⟨ys, rfl⟩ : ∃ ys, d = x :: ys := List.head?_eq_some_iff.1 hd
  rw [h] at hpre
  exact hne x hx (List.cons_prefix_cons.1 hpre).1.symm

/-- An identifier of a script: a word with an underscore. -/
structure IsIdentifier (text : String) : Prop where
  word : Word text
  score : '_' ∈ text.toList

theorem ne_of_isWordChar (h : isWordChar c = true) : c ≠ ' ' ∧ c ≠ '\x7d' := by
  constructor <;>
  · rintro rfl
    exact absurd h (by decide)

theorem IsIdentifier.tells (h : IsIdentifier text) : Tells text [] := by
  obtain ⟨c, cs, htext⟩ := List.exists_cons_of_ne_nil (List.ne_nil_of_mem h.score)
  refine tells_nothing htext (ne_of_isWordChar (h.word c (htext ▸ List.mem_cons_self))) fun tail => ?_
  refine declared?_eq_none fun d hd hpre => ?_
  have hall : ∀ d ∈ declarators, '_' ∉ d ∧ ' ' ∈ d :=
    forall_declarators.2 ⟨by decide, by decide, by decide⟩
  -- the shorter one of the identifier and what declares would be the head of the other
  rcases List.prefix_or_prefix_of_prefix hpre (List.prefix_append _ _) with hpre | hpre
  · exact absurd (h.word _ (hpre.subset (hall d hd).2)) (by decide)
  · exact (hall d hd).1 (hpre.subset h.score)

theorem declared?_append (cs : List Char) :
    ∀ d ∈ declarators, declared? (d ++ cs) = some (.ofList (cs.takeWhile isWordChar)) :=
  forall_declarators.2 ⟨rfl, rfl, rfl⟩

/-- A declaration with something behind its name that belongs to no word. -/
theorem tells_declaration {keyword name stop : String} (hk : keyword.toList ∈ declarators) (hn : Word name)
    (hs : stop.toList = c :: cs) (hc : isWordChar c = false) :
    Tells (keyword ++ name ++ stop) [.declares name] := by
  have hplain : ∀ d ∈ declarators, ∀ cs : List Char, (d ++ cs).head?.any (· != ' ') = true ∧
      (d ++ cs).head? ≠ some '\x7d' :=
    forall_declarators.2 ⟨fun _ => ⟨rfl, nofun⟩, fun _ => ⟨rfl, nofun⟩, fun _ => ⟨rfl, nofun⟩⟩
  refine ⟨?_, fun tail => ?_⟩
  · rw [String.toList_append, String.toList_append, List.append_assoc]
    exact (hplain _ hk _).1
  · have hname : (name.toList ++ (stop.toList ++ tail)).takeWhile isWordChar = name.toList := by
      rw [List.takeWhile_append_of_pos hn, hs, List.cons_append, List.takeWhile_cons_of_neg (by simp [hc]),
        List.append_nil]
    have hdecl := declared?_append (name.toList ++ (stop.toList ++ tail)) _ hk
    rw [hname, String.ofList_toList] at hdecl
    rw [String.toList_append, String.toList_append, List.append_assoc, List.append_assoc, headMarks, hdecl,
      if_neg (hplain _ hk _).2]
    rfl

/-- A method may be called like a word that declares: no blank stands behind its name. -/
theorem tells_method {name : String} (hn : Word name) : Tells (name ++ "(") [] := by
  have hne : ∀ c ∈ (name ++ "(").toList, c ≠ ' ' ∧ c ≠ '\x7d' := by
    rw [String.toList_append]
    exact List.forall_mem_append.2
      ⟨fun c hc => ne_of_isWordChar (hn c hc), List.forall_mem_singleton.2 (by decide)⟩
  obtain ⟨c, cs, htext⟩ := List.exists_cons_of_ne_nil
    (l := (name ++ "(").toList) (by rw [String.toList_append]; simp)
  refine tells_nothing htext (hne c (htext ▸ List.mem_cons_self)) fun tail => ?_
  refine declared?_eq_none fun d hd hpre => ?_
  obtain ⟨rest, hrest⟩ := hpre
  have hblank : (d ++ rest).dropWhile isWordChar = ' ' :: rest := by
    revert d
    exact forall_declarators.2 ⟨fun _ => rfl, fun _ => rfl, fun _ => rfl⟩
  rw [hrest, String.toList_append, List.append_assoc, List.dropWhile_append_of_pos hn] at hblank
  cases hblank

theorem isQuiet_of_isDigit (h : Numeral.isDigit c = true) : isQuiet c = true := by
  have hne : ∀ x ∈ [' ', '\x7d', 'l', 'f', 'c'], c ≠ x := by
    rintro x hx rfl
    simp only [List.mem_cons, List.not_mem_nil, or_false] at hx
    rcases hx with rfl | rfl | rfl | rfl | rfl <;> exact absurd h (by decide)
  simp only [isQuiet, decide_eq_true_eq]
  exact fun hmem => hne c hmem rfl

end Heads

end Snack.Script
