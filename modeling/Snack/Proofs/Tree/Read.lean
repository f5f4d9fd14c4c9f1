import Snack.Proofs.Tree.Grammar
import Snack.Proofs.Tree.Spans
import Snack.Proofs.Tree.Targets

/-! What is read from tokens. A node belongs to its tokens, and if these are tokens of a source text, the node
is as the grammar asks for. -/

namespace Snack.Tree

/-- A value that belongs to the tokens, and has the property if they are tokens of a source text. -/
structure ReadFrom {α : Type} (R : α → List Token → Prop) (P : α → Prop) (a : α) (cs : List Token) : Prop where
  spans : R a cs
  sound : Token.Proper cs → P a

section Runs

variable {α : Type} {R : α → List Token → Prop} {P : α → Prop} {a : α} {as : List α} {cs : List Token}

theorem ReadFrom.imp {Q : α → Prop} (h : ReadFrom R P a cs) (hPQ : P a → Q a) : ReadFrom R Q a cs :=
  ⟨h.spans, fun hp => hPQ (h.sound hp)⟩

theorem InRow.read (h : InRow (ReadFrom R P) as cs) : ReadFrom (InRow R) (∀ a ∈ ·, P a) as cs := by
  induction h with
  | nil => exact ⟨.nil, by simp⟩
  | cons h _ ih =>
    refine ⟨.cons h.spans ih.spans, fun hp => ?_⟩
    obtain ⟨hcs, hds⟩ := Token.proper_append.1 hp
    exact List.forall_mem_cons.2 ⟨h.sound hcs, ih.sound hds⟩

theorem AfterCommas.read (h : AfterCommas (ReadFrom R P) as cs) :
    ReadFrom (AfterCommas R) (∀ a ∈ ·, P a) as cs := by
  induction h with
  | nil => exact ⟨.nil, by simp⟩
  | cons ht h _ ih =>
    refine ⟨.cons ht h.spans ih.spans, fun hp => ?_⟩
    obtain ⟨hcs, hds⟩ := Token.proper_append.1 (Token.proper_cons.1 hp).2
    exact List.forall_mem_cons.2 ⟨h.sound hcs, ih.sound hds⟩

theorem Separated.read (h : Separated (ReadFrom R P) as cs) :
    ReadFrom (Separated R) (∀ a ∈ ·, P a) as cs := by
  cases h with
  | nil => exact ⟨.nil, by simp⟩
  | cons h hs =>
    refine ⟨.cons h.spans hs.read.spans, fun hp => ?_⟩
    obtain ⟨hcs, hds⟩ := Token.proper_append.1 hp
    exact List.forall_mem_cons.2 ⟨h.sound hcs, hs.read.sound hds⟩

theorem Terminated.read (h : Terminated (ReadFrom R P) as cs) :
    ReadFrom (Terminated R) (∀ a ∈ ·, P a) as cs := by
  induction h with
  | nil => exact ⟨.nil, by simp⟩
  | last h => exact ⟨.last h.spans, fun hp => List.forall_mem_singleton.2 (h.sound hp)⟩
  | cons h ht _ ih =>
    refine ⟨.cons h.spans ht ih.spans, fun hp => ?_⟩
    obtain ⟨hcs, hds⟩ := Token.proper_append.1 hp
    exact List.forall_mem_cons.2 ⟨h.sound hcs, ih.sound (Token.proper_cons.1 hds).2⟩

theorem IfAny.read {o : Option α} (h : IfAny (ReadFrom R P) o cs) : ReadFrom (IfAny R) (∀ a ∈ ·, P a) o cs := by
  cases h with
  | none => exact ⟨.none, by simp⟩
  | some h => exact ⟨.some h.spans, fun hp => by simpa using h.sound hp⟩

theorem Behind.read {s : String} (h : Behind (ReadFrom R P) s a cs) : ReadFrom (Behind R s) P a cs := by
  obtain ⟨ht, h⟩ := h
  exact ⟨.mk ht h.spans, fun hp => h.sound (Token.proper_cons.1 hp).2⟩

theorem Between.read {s s' : String} (h : Between (ReadFrom R P) s s' a cs) :
    ReadFrom (Between R s s') P a cs := by
  obtain ⟨ht, h, hu⟩ := h
  refine ⟨.mk ht h.spans hu, fun hp => h.sound ?_⟩
  exact (Token.proper_append.1 (Token.proper_cons.1 hp).2).1

end Runs

/-! ### Nodes -/

structure TypeExpr.Sound (t : TypeExpr) : Prop where
  graded : t.Graded
  formed : t.Formed

/-- An expression of a source text that can stand where one of the level is asked for. -/
structure Expr.Sound (lv : Level) (e : Expr) : Prop extends Expr.Fits lv e where
  formed : e.Formed

theorem Expr.Sound.mono {lv lv' : Level} {e : Expr} (he : e.Sound lv') (h : lv ≤ lv') : e.Sound lv :=
  ⟨he.toFits.mono h, he.formed⟩

structure Entry.Sound (e : Entry) : Prop where
  key : e.key.Sound .coalesce
  value : e.value.Sound .coalesce

structure Param.Sound (q : Param) : Prop where
  graded : q.Graded
  formed : q.Formed

/-- A statement of a source text. -/
structure Stmt.Sound (s : Stmt) : Prop where
  graded : s.Graded
  formed : s.Formed
  places : s.AssignsPlaces

/-- All that holds of the statements of a block. -/
theorem sound_block {ss : List Stmt} (h : ∀ s ∈ ss, s.Sound) :
    (∀ s ∈ ss, s.Graded) ∧ (∀ s ∈ ss, s.Formed) ∧ ∀ t ∈ targetsOfBlock ss, t.isPlace = true :=
  ⟨fun s hs => (h s hs).graded, fun s hs => (h s hs).formed,
    forall_targetsOfBlock.2 fun s hs => (h s hs).places⟩

structure ElseIf.Sound (c : ElseIf) : Prop where
  test : c.test.Sound .coalesce
  body : ∀ s ∈ c.body, s.Sound

abbrev TypeExpr.IsReadFrom : TypeExpr → List Token → Prop := ReadFrom TypeExpr.Spans TypeExpr.Sound

abbrev Expr.IsReadFrom (lv : Level) : Expr → List Token → Prop := ReadFrom Expr.Spans (Expr.Sound lv)

abbrev Stmt.IsReadFrom : Stmt → List Token → Prop := ReadFrom Stmt.Spans Stmt.Sound

abbrev blockIsReadFrom : List Stmt → List Token → Prop := ReadFrom blockSpans (∀ s ∈ ·, s.Sound)

/-- A type that is read from tokens of which the first is an emoji starts with the emoji. -/
theorem TypeExpr.Spans.opensWithPrim {type : TypeExpr} {t : Token} {cs : List Token} (h : type.Spans cs)
    (hcs : cs.head? = some t) (ht : t.Regular) (hk : t.kind = .type) : type.OpensWithPrim := by
  have hword {s : String} (hs : t.spells s = true) : Token.Kind.ofText s = .type := by
    rw [← (Token.spells_iff.1 hs).1, ← ht.kind_eq (by simp [hk]), hk]
  induction h with
  | named => trivial
  | array hs =>
    cases hcs
    exact absurd (hword hs) (by decide)
  | dict hs =>
    cases hcs
    exact absurd (hword hs) (by decide)
  | optional hp _ _ ih =>
    obtain ⟨u, us, rfl, -⟩ := hp
    exact ih hcs
  | ref h =>
    cases hcs
    exact absurd (h.symm.trans hk) (by decide)

end Snack.Tree
