import Snack.Proofs.Parser.Layout

/-! What a parser makes of string literals. It tells their contents from others in one way only: where a
statement is to start, a string literal that holds the first word of one passes for that word. -/

namespace Snack

namespace Parser

open Snack.Tree

/-! ### Contents -/

/-- Forgets the contents of a string literal. -/
def hide (_ : String) : String := ""

/-- Forgets the contents of a string literal, unless they are the first word of a statement. -/
def mask (s : String) : String := if s ∈ Keyword.heads.map Keyword.text then s else ""

/-- Puts the word of a declaration in place of every first word of a statement, and forgets other contents. -/
def flag (s : String) : String := if s ∈ Keyword.heads.map Keyword.text then Keyword.var.text else ""

/-- Forgets the word of a declaration. -/
def unflag (s : String) : String := if s = Keyword.var.text then "" else s

theorem empty_ne_text (k : Keyword) : "" ≠ k.text := by
  cases k <;> decide

/-- What is no first word of a statement is as good as nothing. -/
theorem head_iff_of_not_mem {s : String} (hs : s ∉ Keyword.heads.map Keyword.text) {k : Keyword}
    (hk : k ∈ Keyword.heads) : s = k.text ↔ "" = k.text :=
  ⟨fun h => absurd (h ▸ List.mem_map_of_mem hk) hs, fun h => absurd h (empty_ne_text k)⟩

theorem keepsHeads_mask : Keyword.KeepsHeads mask := by
  intro k hk s
  unfold mask
  split
  · exact Iff.rfl
  · next hs => exact (head_iff_of_not_mem hs hk).symm

/-- A string literal is refused in place of a declaration. -/
def IsRefusal (e : Error) : Prop := ∃ p, e = refusal p

theorem passes_flag : Passes (fun _ => False) IsRefusal flag := by
  intro s
  unfold flag
  split
  · exact .inr (.inr ⟨rfl, fun p => ⟨p, rfl⟩⟩)
  · next hs => exact .inl fun k hk => head_iff_of_not_mem hs hk

theorem passes_unflag : Passes IsRefusal (fun _ => False) unflag := by
  intro s
  unfold unflag
  split
  · next hs => exact .inr (.inl ⟨hs, fun p => ⟨p, rfl⟩⟩)
  · exact .inl fun _ _ => Iff.rfl

theorem unflag_comp_flag : unflag ∘ flag = hide := by
  funext s
  unfold Function.comp flag
  split
  · rfl
  · rfl

/-! ### Tokens with other contents -/

section Contents

variable {g : String → String} {ts us : List Token}

theorem run_eq_of_parallel (h : Parallel (Moved id) (Image (changeBlock id g)) (run ts) (run us)) :
    run us = (run ts).map (changeBlock id g) := by
  rcases h.cases with ⟨a, b, ha, hb, hab⟩ | ⟨e, d, he, hd, hed⟩
  · rw [ha, hb, show b = _ from hab]
    rfl
  · have hsame : d = e := by
      rw [show d = _ from hed]
      split <;> rfl
    rw [he, hd, hsame]
    rfl

/-- With new contents tokens are read into the same tree with the new contents, or fail in the same way, if the
contents are the first words of statements just where they were. -/
theorem run_masked (ts : List Token) :
    run (ts.map (Token.change id mask)) = (run ts).map (changeBlock id mask) :=
  run_eq_of_parallel (changed_run keepsHeads_mask (Token.becomes_of_contents ts))

theorem map_hide_map (g : String → String) (r : Except Error Program) :
    (r.map (changeBlock id g)).map (changeBlock id hide) = r.map (changeBlock id hide) := by
  cases r with
  | error e => rfl
  | ok A => exact congrArg Except.ok (changeBlock_change A)

/-- A string literal that holds the first word of a statement stands where a statement is to start. This shows
when all such literals hold the word of a declaration: then one of them is refused. -/
def Mistaken (ts : List Token) : Prop := ∃ p, run (ts.map (Token.change id flag)) = .error (refusal p)

/-- Without their contents tokens are read into the same tree without contents, or fail in the same way. -/
theorem run_hidden (h : ¬ Mistaken ts) :
    run (ts.map (Token.change id hide)) = (run ts).map (changeBlock id hide) := by
  have hrefused : ¬ ∃ e, run (ts.map (Token.change id flag)) = .error e ∧ IsRefusal e := by
    rintro ⟨_, he, p, rfl⟩
    exact h ⟨p, he⟩
  have hflagged : run (ts.map (Token.change id flag)) = (run ts).map (changeBlock id flag) := by
    rcases changed_run_unless passes_flag (Token.becomes_of_contents ts) with ⟨_, -, hfalse⟩ | hstop | hsame
    · exact hfalse.elim
    · exact absurd hstop hrefused
    · exact run_eq_of_parallel hsame
  have hhidden : (ts.map (Token.change id flag)).map (Token.change id unflag) =
      ts.map (Token.change id hide) := by
    rw [List.map_map, ← unflag_comp_flag]
    exact List.map_congr_left fun t _ => t.change_change
  rcases changed_run_unless passes_unflag (Token.becomes_of_contents (ts.map (Token.change id flag))) with
    hstop | ⟨_, -, hfalse⟩ | hsame
  · exact absurd hstop hrefused
  · exact hfalse.elim
  · rw [hhidden] at hsame
    rw [run_eq_of_parallel hsame, hflagged]
    cases run ts with
    | error e => rfl
    | ok A =>
      refine congrArg Except.ok ((changeBlock_change A).trans ?_)
      rw [unflag_comp_flag]
      rfl

end Contents

/-! ### String literals that stand alone -/

/-- What is read from a string literal alone, given what is left of its contents. -/
def readAlone (p : Pos) (s : String) : Except Error Program :=
  if s = Keyword.brk.text then .ok [.brk p]
  else .error ⟨if s = "" then .notAStatement else .expected (.text s) .stringLiteral, p⟩

theorem run_literal (p q : Pos) (s : String) :
    run [⟨.string, mask s, p⟩, .endAt q] = readAlone p (mask s) := by
  unfold mask
  split
  · next hs =>
    obtain ⟨k, hk, rfl⟩ := List.mem_map.1 hs
    simp only [Keyword.heads, List.mem_cons, List.not_mem_nil, or_false] at hk
    rcases hk with rfl | rfl | rfl | rfl | rfl | rfl | rfl | rfl | rfl | rfl <;> cbv
  · cbv

theorem hidden_literal (p q : Pos) (s : String) :
    (run [⟨.string, s, p⟩, .endAt q]).map (changeBlock id hide) = readAlone p (mask s) := by
  have hread : (run [⟨.string, s, p⟩, .endAt q]).map (changeBlock id mask) = readAlone p (mask s) :=
    (run_masked _).symm.trans (run_literal p q s)
  rw [← map_hide_map mask, hread]
  unfold readAlone
  split <;> rfl

theorem readAlone_inj {p : Pos} {s s' : String} (h : readAlone p s = readAlone p s') : s = s' := by
  unfold readAlone at h
  by_cases hs : s = Keyword.brk.text
  · rw [if_pos hs] at h
    by_cases hs' : s' = Keyword.brk.text
    · exact hs.trans hs'.symm
    · rw [if_neg hs'] at h
      cases h
  · rw [if_neg hs] at h
    by_cases hs' : s' = Keyword.brk.text
    · rw [if_pos hs'] at h
      cases h
    · rw [if_neg hs'] at h
      have hcause := congrArg Located.cause (Except.error.inj h)
      grind

/-- Tokens that differ in the contents of string literals only are read into trees that differ in these
contents only, or fail for the same cause at the same place, unless a literal that holds the first word of a
statement stands where a statement is to start; even then it is so if both hold the same of these words. String
literals that stand alone are told apart by these words and by nothing else. -/
theorem strings_opaque_unless_mistaken (ts us : List Token) (p q : Pos) (v w : String) :
    (ts.map (Token.change id hide) = us.map (Token.change id hide) →
      (¬ Mistaken ts ∧ ¬ Mistaken us ∨ ts.map (Token.change id mask) = us.map (Token.change id mask)) →
      (run ts).map (changeBlock id hide) = (run us).map (changeBlock id hide)) ∧
    ((run [⟨.string, v, p⟩, .endAt q]).map (changeBlock id hide) =
      (run [⟨.string, w, p⟩, .endAt q]).map (changeBlock id hide) ↔ mask v = mask w) := by
  refine ⟨fun hsame h => ?_, ?_⟩
  · rcases h with ⟨hts, hus⟩ | hmask
    · rw [← run_hidden hts, ← run_hidden hus, hsame]
    · rw [← map_hide_map mask, ← map_hide_map mask (run us), ← run_masked, ← run_masked, hmask]
  · rw [hidden_literal, hidden_literal]
    exact ⟨readAlone_inj, fun h => by rw [h]⟩

/-- A string literal that is printed. -/
def printed (s : String) : List Token := [⟨.keyword, "🍽", ⟨1, 1⟩⟩, ⟨.string, s, ⟨1, 3⟩⟩, .endAt ⟨1, 6⟩]

theorem run_flagged_printed : run ((printed "☕").map (Token.change id flag)) =
      .ok [.print ⟨1, 1⟩ [.str ⟨1, 3⟩ "🍳"]] ∧
    run ((printed "x").map (Token.change id flag)) = .ok [.print ⟨1, 1⟩ [.str ⟨1, 3⟩ ""]] := by
  have hword : (printed "☕").map (Token.change id flag) = printed "🍳" := rfl
  have hother : (printed "x").map (Token.change id flag) = printed "" := rfl
  rw [hword, hother]
  exact ⟨by cbv, by cbv⟩

/-- Inside of a statement a string literal may hold the first word of another. -/
theorem strings_opaque_unless_mistaken_printed :
    (printed "☕").map (Token.change id hide) = (printed "x").map (Token.change id hide) ∧
      ¬ Mistaken (printed "☕") ∧ ¬ Mistaken (printed "x") ∧
      (run (printed "☕")).map (changeBlock id hide) = (run (printed "x")).map (changeBlock id hide) := by
  obtain ⟨hword, hother⟩ := run_flagged_printed
  have hts : ¬ Mistaken (printed "☕") := fun ⟨_, h⟩ => nomatch hword.symm.trans h
  have hus : ¬ Mistaken (printed "x") := fun ⟨_, h⟩ => nomatch hother.symm.trans h
  have hsame : (printed "☕").map (Token.change id hide) = (printed "x").map (Token.change id hide) := rfl
  exact ⟨hsame, hts, hus, (strings_opaque_unless_mistaken _ _ .start .start "" "").1 hsame (.inl ⟨hts, hus⟩)⟩

/-- A string literal that holds the word of a break is read as one, and another is no statement. -/
theorem break_in_quotes :
    Token.scan "\"☕\"" = .ok [⟨.string, "☕", ⟨1, 1⟩⟩, .endAt ⟨1, 4⟩] ∧
      Token.scan "\"x\"" = .ok [⟨.string, "x", ⟨1, 1⟩⟩, .endAt ⟨1, 4⟩] ∧
      run [⟨.string, "☕", ⟨1, 1⟩⟩, .endAt ⟨1, 4⟩] = .ok [.brk ⟨1, 1⟩] ∧
      run [⟨.string, "x", ⟨1, 1⟩⟩, .endAt ⟨1, 4⟩] = .error ⟨.notAStatement, ⟨1, 1⟩⟩ :=
  ⟨rfl, rfl, by cbv, by cbv⟩

end Parser

end Snack
