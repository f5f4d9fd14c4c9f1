import Snack.Proofs.Token.Items

/-! Places of tokens and of faults: as many lines down as there are line feeds before the character that is
meant, and as many columns as there are characters behind the last of them. Only the end of a text can be
told elsewhere, in the column of a line comment that reaches up to it. -/

namespace Snack

namespace Pos

/-- The place behind a text that starts in the first line and column. -/
def behind (cs : List Char) : Pos :=
  ⟨1 + (cs.count '\n' : Int), 1 + ((cs.reverse.takeWhile (· != '\n')).length : Int)⟩

theorem start_afterAll (cs : List Char) : start.afterAll cs = behind cs := by
  suffices h : ∀ rev : List Char, start.afterAll rev.reverse = behind rev.reverse by
    simpa using h cs.reverse
  -- the last character decides whether the column starts anew
  intro rev
  induction rev with
  | nil => rfl
  | cons c rev ih =>
    rw [List.reverse_cons, afterAll_append, ih]
    by_cases hc : c = '\n'
    · subst hc
      simp [behind, after]
      omega
    · simp [behind, after, hc]
      omega

theorem behind_afterAll (xs ys : List Char) : (behind xs).afterAll ys = behind (xs ++ ys) := by
  rw [← start_afterAll, ← start_afterAll, afterAll_append]

theorem line_behind_append {xs ys : List Char} (h : '\n' ∉ ys) : (behind (xs ++ ys)).line = (behind xs).line := by
  simp [behind, List.count_eq_zero.2 h]

/-- Behind a line feed the column does not matter. -/
theorem after_feed {p q : Pos} (h : p.line = q.line) : p.after '\n' = q.after '\n' := by
  simp [after, h]

end Pos

namespace Token

/-! ### Where reading goes on -/

/-- Reading goes on with `rest` behind some items: at its place or, where a line ends in a comment, at the
place of that comment. -/
inductive Reached : List Item → List Char → Pos → Prop where
  | behind {xs rest} (h : ∀ ys body, xs ≠ ys ++ [.line body]) :
      Reached xs rest (.behind (xs.flatMap Item.text))
  | comment {xs body rest} (hbody : '\n' ∉ body) (hrest : ∀ c ∈ rest.head?, c = '\n') :
      Reached (xs ++ [.line body]) rest (.behind (xs.flatMap Item.text))

section Reading

variable {xs ys : List Item} {x : Item} {cs rest : List Char} {p q : Pos}

theorem Reached.line_eq (h : Reached xs rest p) : p.line = (Pos.behind (xs.flatMap Item.text)).line := by
  cases h with
  | behind => rfl
  | @comment xs body _ hbody =>
    have hline : '\n' ∉ lineComment :: body := by simp [hbody, lineComment]
    rw [List.flatMap_append, List.flatMap_singleton]
    exact (Pos.line_behind_append hline).symm

/-- Before a character that does not end a line, reading is at its place. -/
theorem Reached.pos_eq {c : Char} (h : Reached xs (c :: rest) p) (hc : c ≠ '\n') :
    p = .behind (xs.flatMap Item.text) := by
  cases h with
  | behind => rfl
  | comment _ hrest => exact absurd (hrest c rfl) hc

theorem Reached.after_eq {c : Char} (h : Reached xs (c :: rest) p) :
    p.after c = (Pos.behind (xs.flatMap Item.text)).after c := by
  by_cases hc : c = '\n'
  · subst hc
    exact Pos.after_feed h.line_eq
  · rw [h.pos_eq hc]

/-- Behind a line comment, reading is still at its place. -/
theorem Reached.comment_eq {body : List Char} (h : Reached (xs ++ [.line body]) rest p) :
    p = .behind (xs.flatMap Item.text) := by
  generalize hys : xs ++ [.line body] = ys at h
  cases h with
  | behind h => exact absurd hys.symm (h xs body)
  | comment =>
    obtain ⟨rfl, -⟩ := List.append_inj' hys rfl
    rfl

theorem Reached.step (h : Reached xs (x.text ++ rest) p) (hfits : x.Fits rest) :
    Reached (xs ++ [x]) rest (x.next p) := by
  have hexact : p.afterAll x.text = .behind ((xs ++ [x]).flatMap Item.text) := by
    obtain ⟨c, tail, htext⟩ := List.exists_cons_of_ne_nil (Item.text_ne_nil hfits)
    rw [htext, List.cons_append] at h
    rw [List.flatMap_append, List.flatMap_singleton, ← Pos.behind_afterAll, htext, Pos.afterAll_cons,
      Pos.afterAll_cons, h.after_eq]
  cases x with
  | line body =>
    obtain rfl := h.pos_eq (by decide)
    exact .comment hfits.1 hfits.2
  | blank | block | token =>
    show Reached _ rest (p.afterAll _)
    rw [hexact]
    exact .behind (by simp)

theorem Reached.run (h : Reached xs cs p) (hwalk : Walk p cs ys q rest) : Reached (xs ++ ys) rest q := by
  induction hwalk generalizing xs with
  | nil => simpa using h
  | @cons p cs x ys q rest hfits _ _ ih => simpa using ih (h.step hfits)

theorem Walk.reached (h : Walk .start cs xs q rest) : Reached xs rest q := by
  have hstart : Reached [] cs .start := .behind (by simp)
  exact hstart.run h

end Reading

/-! ### Places in a source text -/

/-- The result of reading a source text has exact places. -/
inductive Placed (source : List Char) : Except Error (List Token) → Prop where
  /-- Each token is at the first character of its lexeme. The end of the text is at its end, or in the column
  of the line comment that it ends in. -/
  | tokens {items q} (h : Begins source items [])
      (hpos : ∀ before t lexeme after, items = before ++ .token t lexeme :: after →
        t.pos = .behind (before.flatMap Item.text))
      (hline : q.line = (Pos.behind source).line)
      (hcol : (∀ before body, items ≠ before ++ [.line body]) → q.col = (Pos.behind source).col)
      (hcomment : ∀ before body, items = before ++ [.line body] →
        q.col = (Pos.behind (before.flatMap Item.text)).col) :
      Placed source (.ok (items.filterMap Item.token? ++ [endAt q]))
  /-- A fault is told where it begins, but a bad escape at its backslash. -/
  | fault {items rest e} (h : Begins source items rest)
      (hf : Fault (fun read => .behind (items.flatMap Item.text ++ read)) rest e) : Placed source (.error e)

theorem Fault.head {place : List Char → Pos} {cs : List Char} {e : Error} (h : Fault place cs e) :
    ∃ c tail, cs = c :: tail ∧ c ≠ '\n' := by
  cases h with
  | comment => exact ⟨_, _, rfl, by decide⟩
  | string => exact ⟨_, _, rfl, by decide⟩
  | exponent hw =>
    obtain ⟨d, ds, rfl⟩ := List.exists_cons_of_ne_nil hw.ne_nil
    refine ⟨d, _, rfl, ?_⟩
    rintro rfl
    exact absurd (hw.all _ List.mem_cons_self) (by decide)
  | escape => exact ⟨_, _, rfl, by decide⟩
  | unexpected hb =>
    refine ⟨_, _, rfl, ?_⟩
    rintro rfl
    exact absurd hb (by decide)

/-- Every place that reading a source text gives is exact: those of tokens, of the end and of faults. -/
theorem scan_placed (source : String) : Placed source.toList (scan source) := by
  have hrun : Run .start source.toList (scan source) := run_scanFrom (Nat.le_refl _)
  cases hscan : scan source with
  | error e =>
    rw [hscan] at hrun
    cases hrun with
    | fault hwalk hfault =>
      obtain ⟨c, tail, rfl, hc⟩ := hfault.head
      obtain rfl := hwalk.reached.pos_eq hc
      refine .fault hwalk.begins ?_
      rwa [← funext (Pos.behind_afterAll _)]
  | ok ts =>
    rw [hscan] at hrun
    cases hrun with
    | @tokens items q hwalk =>
      have hbegins := hwalk.begins
      have htext : source.toList = items.flatMap Item.text := by simpa using hbegins.text
      refine .tokens hbegins ?_ ?_ ?_ ?_
      · rintro before t lexeme after rfl
        obtain ⟨r, hbefore, hfits, hpos⟩ := hwalk.split
        obtain ⟨c, tail, hlexeme⟩ := List.exists_cons_of_ne_nil hfits.1.ne_nil
        have hc : c ≠ '\n' := by
          rintro rfl
          exact hfits.1.inline (by simp [hlexeme])
        have hreached := hbefore.reached
        rw [Item.text, hlexeme, List.cons_append] at hreached
        rw [hpos t rfl, hreached.pos_eq hc]
      · rw [htext]
        exact hwalk.reached.line_eq
      · intro hne
        rw [htext]
        cases hwalk.reached with
        | behind => rfl
        | comment => exact absurd rfl (hne _ _)
      · rintro before body rfl
        rw [hwalk.reached.comment_eq]

end Token

end Snack
