import Snack.Proofs.Token.Layout

/-! Tokens that stand elsewhere and have other string literals: `f` takes each place to another one, and `g`
gives each string literal new contents. -/

namespace Snack

namespace Keyword

/-- The words that a statement is told by. -/
def heads : List Keyword :=
  [.var, .collection, .function, .classDecl, .ifBranch, .whileLoop, .forLoop, .print, .ret, .brk]

/-- New contents that are the first word of a statement just where the old ones are. -/
def KeepsHeads (g : String → String) : Prop := ∀ k ∈ heads, ∀ s, g s = k.text ↔ s = k.text

end Keyword

namespace Token

def change (f : Pos → Pos) (g : String → String) (t : Token) : Token :=
  ⟨t.kind, if t.kind = .string then g t.text else t.text, f t.pos⟩

/-- What is left of a token when its place and the contents of a string literal are forgotten. -/
def outline (t : Token) : Kind × Option String := (t.kind, if t.kind = .string then none else some t.text)

/-- The same tokens where `f` takes them, with the contents that `g` gives them. What stands on the line of a
return is kept. -/
structure Becomes (f : Pos → Pos) (g : String → String) (ts us : List Token) : Prop where
  tokens : us = ts.map (change f g)
  returns : returnsInline ts = returnsInline us

section Changes

variable {f : Pos → Pos} {g : String → String} {t t' : Token} {ts us : List Token}

theorem change_of_ne (h : t.kind ≠ .string) : t.change f g = t.move f := by
  rw [change, if_neg h]
  rfl

theorem change_id (t : Token) : t.change f id = t.move f := by
  rw [change, id_eq, ite_self]
  rfl

theorem change_change {f' : Pos → Pos} {g' : String → String} (t : Token) :
    (t.change f g).change f' g' = t.change (f' ∘ f) (g' ∘ g) := by
  by_cases h : t.kind = .string <;> simp [change, h]

theorem spells_change (t : Token) (s : String) : (t.change f g).spells s = t.spells s := by
  by_cases h : t.kind = .string
  · simp [spells, change, h]
  · rw [change_of_ne h, spells_move]

theorem outline_change (t : Token) : (t.change f g).outline = t.outline := by
  by_cases h : t.kind = .string
  · simp [outline, change, h]
  · rw [change_of_ne h]
    rfl

theorem outline_eq {t u : Token} (h : t.outline = u.outline) :
    t.kind = u.kind ∧ (t.kind ≠ .string → t.text = u.text) := by
  have hkind : t.kind = u.kind := congrArg Prod.fst h
  refine ⟨hkind, fun hne => ?_⟩
  have htext := congrArg Prod.snd h
  rw [outline, outline, if_neg hne, if_neg (hkind ▸ hne)] at htext
  exact Option.some.inj htext

theorem Becomes.tail (h : Becomes f g (t :: ts) us) : Becomes f g ts us.tail := by
  obtain ⟨rfl, hreturns⟩ := h
  refine ⟨rfl, ?_⟩
  cases ts with
  | nil => rfl
  | cons t' ts =>
    rw [List.map_cons, List.map_cons, returnsInline, returnsInline, spells_change] at hreturns
    split at hreturns
    · exact (List.cons.inj hreturns).2
    · exact hreturns

theorem Becomes.length_eq (h : Becomes f g ts us) : ts.length = us.length := by
  rw [h.tokens, List.length_map]

/-- Both lists are at their end, or have the same token in front. -/
theorem Becomes.front (h : Becomes f g ts us) :
    (ts = [] ∧ us = []) ∨ ∃ t ts', ts = t :: ts' ∧ us = t.change f g :: ts'.map (change f g) := by
  obtain ⟨rfl, -⟩ := h
  cases ts with
  | nil => exact .inl ⟨rfl, rfl⟩
  | cons t ts => exact .inr ⟨t, ts, rfl, rfl⟩

/-- What the layout decides behind a return. -/
theorem Becomes.inline (h : Becomes f g (t :: t' :: ts) us) (ht : t.spells Keyword.ret.text = true) :
    t'.pos.line = t.pos.line ↔ (f t'.pos).line = (f t.pos).line := by
  obtain ⟨rfl, hreturns⟩ := h
  rw [List.map_cons, List.map_cons, returnsInline, returnsInline, spells_change, if_pos ht, if_pos ht]
    at hreturns
  exact decide_eq_decide.1 (List.cons.inj hreturns).1

theorem MovesTo.becomes (h : MovesTo f ts us) : Becomes f id ts us := by
  refine ⟨?_, h.returns⟩
  rw [h.tokens]
  exact List.map_congr_left fun t _ => (change_id t).symm

/-- Other contents at the same places. -/
theorem becomes_of_contents (ts : List Token) : Becomes id g ts (ts.map (change id g)) := by
  refine ⟨rfl, ?_⟩
  induction ts with
  | nil => rfl
  | cons t ts ih =>
    cases ts with
    | nil => rfl
    | cons u ts =>
      rw [List.map_cons] at ih
      rw [List.map_cons, List.map_cons, returnsInline, returnsInline, ih, spells_change]
      rfl

end Changes

end Token

end Snack
