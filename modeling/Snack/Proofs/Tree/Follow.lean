import Snack.Proofs.Tree.Grammar

/-! The tokens that an expression of a level can start with, and those that would go on with one. -/

namespace Snack.Tree

open Token (Kind)

/-! ### What goes on with an expression -/

/-- The tokens that go on with an expression at the level. What goes on with a primary expression is the
question mark behind a type in it. -/
def Level.joiners : Level → List String
  | coalesce => ["??"]
  | or => ["||"]
  | and => ["&&"]
  | comparison => ["<", "<=", "==", "!=", ">=", ">"]
  | sum => ["+", "-"]
  | product => ["*", "/", "%"]
  | unary => []
  | power => ["**"]
  | suffix => [".", "?.", "("]
  | primary => ["?"]

/-- A token that does not go on with an expression at the level or a tighter one. -/
def Ends (lv : Level) (t : Token) : Prop := ∀ l, lv ≤ l → ∀ s ∈ l.joiners, t.spells s = false

theorem Ends.mono {lv lv' : Level} {t : Token} (ht : Ends lv t) (h : lv ≤ lv') : Ends lv' t :=
  fun l hl => ht l (Level.le_trans h hl)

theorem Level.eq_of_joiners (l l' : Level) : ∀ s ∈ l.joiners, s ∈ l'.joiners → l = l' := by
  cases l <;> cases l' <;> decide

theorem text_mem_joiners {op : BinaryOp} (hop : ∀ text, op ≠ .other text) :
    op.text ∈ (opLevel op).joiners := by
  cases op with
  | other text => exact absurd rfl (hop text)
  | _ => decide

theorem kind_of_op {op : BinaryOp} (hop : ∀ text, op ≠ .other text) : Kind.ofText op.text = .op := by
  cases op with
  | other text => exact absurd rfl (hop text)
  | _ => decide

/-- A token goes on with expressions at one level. -/
theorem ends_of_joiner {lv l : Level} {t : Token} {s : String} (ht : t.spells s = true)
    (hs : s ∈ l.joiners) (hlt : ¬lv ≤ l) : Ends lv t := by
  intro l' hl' s' hs'
  refine Bool.eq_false_iff.2 fun ht' => hlt ?_
  have heq : s' = s := (Token.spells_iff.1 ht').1.symm.trans (Token.spells_iff.1 ht).1
  rw [Level.eq_of_joiners l l' s hs (heq ▸ hs')]
  exact hl'

/-- What stands behind an expression in brackets. -/
def closers : List String := [")", "]", "\x7d", ",", ":"]

theorem ends_of_closer {lv : Level} {t : Token} {s : String} (ht : t.spells s = true)
    (hs : s ∈ closers) : Ends lv t := by
  have hnone : ∀ l : Level, ∀ s ∈ l.joiners, s ∉ closers := by
    intro l
    cases l <;> decide
  intro l _ s' hs'
  refine Bool.eq_false_iff.2 fun ht' => hnone l s' hs' ?_
  rw [← (Token.spells_iff.1 ht').1, (Token.spells_iff.1 ht).1]
  exact hs

/-! ### What an expression starts with -/

/-- The texts that start a primary expression. -/
def openers : List String :=
  [Keyword.true.text, Keyword.false.text, Keyword.none.text, "(", "[", "\x7b"]

/-- A lexeme that an expression of the level can start with. -/
def Starts (lv : Level) (x : Lexeme) : Prop :=
  x.kind = .string ∨ x = .ofText x.text ∧
    (x.kind = .number ∨ x.kind = .ident ∨ x.text ∈ openers ∨ lv ≤ .unary ∧ x.text ∈ ["-", "!"])

instance (lv : Level) (x : Lexeme) : Decidable (Starts lv x) := by
  unfold Starts
  infer_instance

theorem Starts.mono {lv lv' : Level} {x : Lexeme} (hx : Starts lv' x) (h : lv ≤ lv') : Starts lv x := by
  refine hx.imp_right fun ⟨hreg, hx⟩ => ⟨hreg, ?_⟩
  exact hx.imp_right (Or.imp_right (Or.imp_right fun ⟨hlv, hs⟩ => ⟨Level.le_trans h hlv, hs⟩))

theorem opLevel_le_leftLevel (op : BinaryOp) : opLevel op ≤ leftLevel op := by
  cases op with
  | other text => exact Level.le_refl _
  | _ => decide

/-- What is in front of a sequence is in front of its first part, unless that is empty. -/
theorem mem_of_cons_mem_mul {L M : Language Lexeme} {x : Lexeme} {xs : List Lexeme} (hL : [] ∉ L)
    (h : x :: xs ∈ L * M) : ∃ ys, x :: ys ∈ L := by
  obtain ⟨ys, hys, zs, -, heq⟩ := Language.mem_mul.1 h
  cases ys with
  | nil => exact absurd hys hL
  | cons y ys =>
    obtain ⟨rfl, -⟩ := List.cons.inj heq
    exact ⟨ys, hys⟩

theorem starts_of_opener {lv : Level} {s : String} (hs : s ∈ openers) : Starts lv (.ofText s) :=
  .inr ⟨rfl, .inr (.inr (.inl hs))⟩

/-- The first token of an expression shows its level as far as a prefix operator goes. -/
theorem starts_of_yields {e : Expr} (he : e.Graded) {x : Lexeme} {xs : List Lexeme}
    (h : x :: xs ∈ e.yields) : Starts e.level x := by
  induction he generalizing x xs with
  | @num p text hk =>
    obtain ⟨rfl, -⟩ := List.cons.inj (show _ = [_] from h)
    exact .inr ⟨by rw [Lexeme.ofText, hk], .inl rfl⟩
  | str =>
    obtain ⟨rfl, -⟩ := List.cons.inj (show _ = [_] from h)
    exact .inl rfl
  | @bool p value =>
    obtain ⟨rfl, -⟩ := List.cons.inj (show _ = [_] from h)
    cases value <;> exact starts_of_opener (by decide)
  | @var p name hk =>
    obtain ⟨rfl, -⟩ := List.cons.inj (show _ = [_] from h)
    exact .inr ⟨by rw [Lexeme.ofText, hk], .inr (.inl rfl)⟩
  | @binary p op l r hop hl hr gl gr ihl ihr =>
    rw [Expr.yields, mul_assoc] at h
    obtain ⟨ys, hys⟩ := mem_of_cons_mem_mul l.nil_notMem_yields h
    exact (ihl hys).mono (Level.le_trans (opLevel_le_leftLevel op) hl)
  | @unary p op e hop he ge ih =>
    rw [eq_of_word_mul h]
    have hsigns : ∀ op ∈ [UnaryOp.neg, .not], Starts .unary (.ofText op.text) := by decide
    exact hsigns op hop
  | @call p f args hf gf ga ihf iha =>
    simp only [Expr.yields, mul_assoc] at h
    obtain ⟨ys, hys⟩ := mem_of_cons_mem_mul f.nil_notMem_yields h
    exact (ihf hys).mono hf
  | @member p o op name hop hn ho go ih =>
    rw [Expr.yields, mul_assoc] at h
    obtain ⟨ys, hys⟩ := mem_of_cons_mem_mul o.nil_notMem_yields h
    exact (ih hys).mono ho
  | paren | array | tuple | dict | emptyArray | emptyOptional =>
    simp only [Expr.yields, mul_assoc] at h
    rw [eq_of_word_mul h]
    exact starts_of_opener (by decide)

/-- A token that an expression starts with is spelled like what one can start with. -/
theorem Starts.spells_eq_false {lv : Level} {t : Token} {s : String} (ht : Starts lv t.lexeme)
    (hs : ¬Starts lv (.ofText s)) : t.spells s = false := by
  refine Bool.eq_false_iff.2 fun hspells => hs ?_
  obtain ⟨rfl, hk, -⟩ := Token.spells_iff.1 hspells
  have hreg : t.lexeme = .ofText t.text := (ht.resolve_left hk).1
  rwa [← hreg]

theorem Starts.kind_ne_type {lv : Level} {x : Lexeme} (hx : Starts lv x) : x.kind ≠ .type := by
  have htexts : ∀ s ∈ openers ++ ["-", "!"], Kind.ofText s ≠ .type := by decide
  intro hk
  obtain hs | ⟨hreg, hs | hs | hs | ⟨-, hs⟩⟩ := hx
  · simp [hs] at hk
  · simp [hs] at hk
  · simp [hs] at hk
  · exact htexts _ (List.mem_append_left _ hs) ((congrArg Lexeme.kind hreg).symm.trans hk)
  · exact htexts _ (List.mem_append_right _ hs) ((congrArg Lexeme.kind hreg).symm.trans hk)

end Snack.Tree
