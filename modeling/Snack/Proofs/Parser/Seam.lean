import Snack.Proofs.Parser.Takes
import Snack.Proofs.Token.Changed

/-! Tokens that go on where others end. What follows starts a statement on a later line, so a parser that comes
to its value before the end comes to the same value where the tokens go on. The only thing that it can mistake
is a name that comes last: it is looked at together with the token behind it. -/

namespace Snack

namespace Token

/-- A token that a statement starts with, in the words of the grammar: a name or the first word of one. -/
def OpensStmt (t : Token) : Prop :=
  t.kind = .ident ∨ t.kind = .keyword ∧ ∃ k ∈ Keyword.heads, t.text = k.text

/-- The text is neither a name nor the first word of a statement. -/
def Continues (s : String) : Prop := Kind.ofText s ≠ .ident ∧ ∀ k ∈ Keyword.heads, s ≠ k.text

instance (s : String) : Decidable (Continues s) := inferInstanceAs (Decidable (_ ∧ _))

theorem OpensStmt.spells_eq_false {t : Token} {s : String} (h : t.OpensStmt) (ht : t.Regular)
    (hs : Continues s) : t.spells s = false := by
  refine Token.spells_eq_false ?_
  rintro rfl
  rcases h with hk | ⟨-, k, hk, htext⟩
  · exact hs.1 ((ht.kind_eq (by simp [hk])).symm.trans hk)
  · exact hs.2 k hk htext

end Token

namespace Parser

open Snack.Tree
open Token (Kind Continues)

/-- Where tokens end in one list and go on in another. -/
structure Seam where
  /-- The place of the end. -/
  place : Pos
  next : Token
  rest : List Token
  opens : next.OpensStmt
  regular : next.Regular

namespace Seam

variable (σ : Seam)

/-- The tokens with the end behind them. -/
def cut (cs : List Token) : List Token := cs ++ [Token.endAt σ.place]

/-- The tokens with what goes on behind them. -/
def joined (cs : List Token) : List Token := cs ++ σ.next :: σ.rest

/-- None of the tokens is an end, and all are on lines above the token that goes on. -/
def Before (cs : List Token) : Prop := ∀ t ∈ cs, t.kind ≠ .eof ∧ t.pos.line < σ.next.pos.line

variable {σ}

theorem before_nil : σ.Before [] := List.forall_mem_nil _

theorem Before.suffix {cs ds : List Token} (h : σ.Before cs) (hds : ds <:+ cs) : σ.Before ds :=
  fun t ht => h t (hds.subset ht)

theorem spells_next {s : String} (hs : Continues s) : σ.next.spells s = false :=
  σ.opens.spells_eq_false σ.regular hs

theorem spells_end (s : String) : (Token.endAt σ.place).spells s = false := by
  simp [Token.spells, Token.endAt]

theorem kind_next_ne {k : Kind} (hi : k ≠ .ident) (hw : k ≠ .keyword) : σ.next.kind ≠ k := by
  rcases σ.opens with h | ⟨h, -⟩
  · rw [h]
    exact hi.symm
  · rw [h]
    exact hw.symm

theorem decide_op_next : decide (σ.next.kind = .op) = false :=
  decide_eq_false (kind_next_ne (by decide) (by decide))

/-- A parser that sees the same before the end and before what goes on, and takes nothing. -/
def Same {α : Type} (σ : Seam) (p : Parser α) : Prop :=
  ∀ cs, ∃ a, p (σ.cut cs) = .ok a (σ.cut cs) ∧ p (σ.joined cs) = .ok a (σ.joined cs)

theorem same_front {α : Type} {h : Token → α} (hend : h (Token.endAt σ.place) = h σ.next) :
    σ.Same (current >>= fun t => pure (h t)) := by
  intro cs
  cases cs with
  | nil => exact ⟨h σ.next, congrArg (EStateM.Result.ok · _) hend, rfl⟩
  | cons t cs => exact ⟨h t, rfl, rfl⟩

theorem same_sees {s : String} (hs : Continues s) : σ.Same (sees s) :=
  same_front ((spells_end s).trans (spells_next hs).symm)

theorem same_seesAny {texts : List String} (hs : ∀ s ∈ texts, Continues s) : σ.Same (seesAny texts) := by
  refine same_front (Eq.trans (b := false) ?_ (Eq.symm ?_))
  · exact List.any_eq_false.2 fun s _ => by simp [spells_end]
  · exact List.any_eq_false.2 fun s hmem => by simp [spells_next (hs s hmem)]

theorem same_seesKind {k : Kind} (he : k ≠ .eof) (hi : k ≠ .ident) (hw : k ≠ .keyword) :
    σ.Same (seesKind k) := by
  refine same_front ?_
  rw [decide_eq_false (kind_next_ne hi hw), decide_eq_false (p := (Token.endAt σ.place).kind = k) he.symm]

end Seam

section Carrying

variable {σ : Seam} {α β : Type} {G : α → Prop} {H : β → Prop} {p p' : Parser α} {f f' : α → Parser β}
variable {n : Nat} {t : Token} {cs : List Token}

/-- If the first parser comes to a value on the tokens `cs` and the end, the second comes to it where the
tokens go on, and leaves the same of `cs`. If nothing is left of them and a name comes next, this is asked
only of values with the property `G`. -/
def CarriesAt (σ : Seam) (cs : List Token) (p p' : Parser α) (G : α → Prop) : Prop :=
  ∀ a us, p (σ.cut cs) = .ok a us → ∃ ds, ds <:+ cs ∧ us = σ.cut ds ∧
    ((ds = [] → σ.next.kind = .ident → G a) → p' (σ.joined cs) = .ok a (σ.joined ds))

/-- The same of any tokens before the end, if there are less than `n` of them. -/
def Carries (σ : Seam) (n : Nat) (p p' : Parser α) (G : α → Prop) : Prop :=
  ∀ cs, σ.Before cs → cs.length < n → CarriesAt σ cs p p' G

/-- The same with `t` in front. -/
def CarriesFrom (σ : Seam) (t : Token) (n : Nat) (p p' : Parser α) (G : α → Prop) : Prop :=
  ∀ cs, σ.Before (t :: cs) → (t :: cs).length < n → CarriesAt σ (t :: cs) p p' G

theorem Carries.from (h : Carries σ n p p' G) (t : Token) : CarriesFrom σ t n p p' G := fun cs => h (t :: cs)

theorem Carries.mono {m : Nat} (h : Carries σ n p p' G) (hm : m ≤ n) : Carries σ m p p' G :=
  fun cs hcs hlen => h cs hcs (Nat.lt_of_lt_of_le hlen hm)

theorem Carries.weaken (h : Carries σ (n + 1) p p' G) : Carries σ n p p' G := h.mono (Nat.le_succ n)

theorem CarriesFrom.weaken (h : CarriesFrom σ t (n + 1) p p' G) : CarriesFrom σ t n p p' G :=
  fun cs hcs hlen => h cs hcs (Nat.lt_succ_of_lt hlen)

theorem Carries.zero : Carries σ 0 p p' G := fun _ _ hlen => absurd hlen (Nat.not_lt_zero _)

/-! ### Sequences -/

theorem CarriesAt.pure (a : α) : CarriesAt σ cs (pure a) (pure a) G := by
  intro b us h
  obtain ⟨rfl, rfl⟩ := pure_ok.1 h
  exact ⟨cs, List.suffix_rfl, rfl, fun _ => rfl⟩

theorem Carries.pure (a : α) : Carries σ n (pure a) (pure a) G := fun _ _ _ => .pure a

theorem CarriesAt.bind (hp : CarriesAt σ cs p p' G)
    (hf : ∀ a ds, p (σ.cut cs) = .ok a (σ.cut ds) → ds <:+ cs → CarriesAt σ ds (f a) (f' a) H)
    (hG : ∀ a b us, f a (σ.cut []) = .ok b us → H b → G a) :
    CarriesAt σ cs (p >>= f) (p' >>= f') H := by
  intro b us h
  obtain ⟨a, mid, ha, hb⟩ := bind_ok.1 h
  obtain ⟨ds, hds, rfl, hcarry⟩ := hp a mid ha
  obtain ⟨es, hes, rfl, hcarry'⟩ := hf a ds ha hds b us hb
  refine ⟨es, hes.trans hds, rfl, fun hsure => ?_⟩
  -- what is left behind the first parser is left behind both
  have hfirst : ds = [] → σ.next.kind = .ident → G a := by
    rintro rfl hk
    exact hG a b _ hb (hsure (List.suffix_nil.1 hes) hk)
  rw [bind_eq_of_ok (hcarry hfirst)]
  exact hcarry' hsure

theorem Carries.bind (hp : Carries σ n p p' G) (hf : ∀ a, Carries σ n (f a) (f' a) H)
    (hG : ∀ a b us, f a (σ.cut []) = .ok b us → H b → G a) : Carries σ n (p >>= f) (p' >>= f') H :=
  fun cs hcs hlen => (hp cs hcs hlen).bind
    (fun a ds _ hds => hf a ds (hcs.suffix hds) (Nat.lt_of_le_of_lt hds.length_le hlen)) hG

theorem Carries.next (hp : Carries σ n p p' fun _ => True) (hf : ∀ a, Carries σ n (f a) (f' a) H) :
    Carries σ n (p >>= f) (p' >>= f') H :=
  hp.bind hf fun _ _ _ _ _ => trivial

theorem Carries.last {h : α → β} (hp : Carries σ n p p' fun _ => True) :
    Carries σ n (p >>= fun a => Pure.pure (h a)) (p' >>= fun a => Pure.pure (h a)) H :=
  hp.next fun a => .pure (h a)

theorem Carries.ite {c : Prop} [Decidable c] {r r' : Parser α} (hp : Carries σ n p p' G)
    (hr : Carries σ n r r' G) : Carries σ n (if c then p else r) (if c then p' else r') G := by
  split
  · exact hp
  · exact hr

theorem CarriesFrom.ite {c : Prop} [Decidable c] {r r' : Parser α} (hp : CarriesFrom σ t n p p' G)
    (hr : CarriesFrom σ t n r r' G) : CarriesFrom σ t n (if c then p else r) (if c then p' else r') G := by
  split
  · exact hp
  · exact hr

/-! ### Failures and looks ahead -/

theorem carries_failAt (pos : Pos) (cause : Cause) : Carries σ n (failAt pos cause) p' G := by
  intro cs _ _ a us h
  cases h

theorem carries_fail (cause : Cause) : Carries σ n (fail cause) p' G := by
  intro cs _ _ a us h
  cases cs <;> cases h

theorem carries_failFor (w : Wanted) : Carries σ n (failFor w) p' G := by
  intro cs _ _ a us h
  cases cs <;> cases h

/-- Nothing happens behind a failure. -/
theorem Carries.never {r : Parser β} (hp : ∀ ts a us, p ts ≠ .ok a us) : Carries σ n (p >>= f) r H := by
  intro cs _ _ b us h
  obtain ⟨a, mid, ha, -⟩ := bind_ok.1 h
  exact absurd ha (hp _ a mid)

theorem CarriesAt.of_eq {q q' : Parser α} (h : CarriesAt σ cs q q' G) (hcut : p (σ.cut cs) = q (σ.cut cs))
    (hjoined : p' (σ.joined cs) = q' (σ.joined cs)) : CarriesAt σ cs p p' G := by
  unfold CarriesAt
  rw [hcut, hjoined]
  exact h

theorem CarriesAt.look {q : Parser α} {a : α} (hcut : q (σ.cut cs) = .ok a (σ.cut cs))
    (hjoined : q (σ.joined cs) = .ok a (σ.joined cs)) (hf : CarriesAt σ cs (f a) (f' a) H) :
    CarriesAt σ cs (q >>= f) (q >>= f') H :=
  hf.of_eq (bind_eq_of_ok hcut) (bind_eq_of_ok hjoined)

theorem Carries.look (hp : σ.Same p) (hf : ∀ a, Carries σ n (f a) (f' a) H) :
    Carries σ n (p >>= f) (p >>= f') H := by
  intro cs hcs hlen
  obtain ⟨a, hcut, hjoined⟩ := hp cs
  exact .look hcut hjoined (hf a cs hcs hlen)

/-- The token in front is the end in one list and what goes on in the other, or the same in both. -/
theorem Carries.current {f f' : Token → Parser β}
    (hend : 0 < n → CarriesAt σ [] (f (Token.endAt σ.place)) (f' σ.next) H)
    (h : ∀ t, CarriesFrom σ t n (f t) (f' t) H) : Carries σ n (current >>= f) (current >>= f') H := by
  intro cs hcs hlen
  cases cs with
  | nil => exact hend hlen
  | cons t cs => exact h t cs hcs hlen

theorem CarriesFrom.sees {s : String} {f f' : Bool → Parser β}
    (h : CarriesFrom σ t n (f (t.spells s)) (f' (t.spells s)) H) :
    CarriesFrom σ t n (sees s >>= f) (sees s >>= f') H := h

theorem CarriesFrom.seesAny {texts : List String} {f f' : Bool → Parser β}
    (h : CarriesFrom σ t n (f (texts.any t.spells)) (f' (texts.any t.spells)) H) :
    CarriesFrom σ t n (seesAny texts >>= f) (seesAny texts >>= f') H := h

theorem CarriesFrom.seesExpr {f f' : Bool → Parser β} (h : ∀ b, CarriesFrom σ t n (f b) (f' b) H) :
    CarriesFrom σ t n (seesExpr >>= f) (seesExpr >>= f') H := h _

/-- A bound is taken from the tokens that are left, of which there are more where they go on. -/
theorem Carries.left {f f' : Nat → Parser β} (h : ∀ k ≤ n, ∀ m ≥ k, Carries σ k (f k) (f' m) H) :
    Carries σ n (left >>= f) (left >>= f') H := by
  intro cs hcs hlen
  have hcut : (σ.cut cs).length = cs.length + 1 := by simp [Seam.cut]
  have hjoined : cs.length + 1 ≤ (σ.joined cs).length := by simp [Seam.joined]
  have hleft := h (cs.length + 1) hlen _ hjoined cs hcs (Nat.lt_succ_self _)
  show CarriesAt σ cs _ _ H
  unfold CarriesAt
  rw [bind_eq_of_ok (show Parser.left (σ.cut cs) = .ok (σ.cut cs).length _ from rfl), hcut]
  exact hleft

/-! ### The token in front -/

theorem CarriesFrom.advance {f f' : Token → Parser β} (h : Carries σ n (f t) (f' t) H) :
    CarriesFrom σ t (n + 1) (advance >>= f) (advance >>= f') H := by
  intro cs hcs hlen b us hb
  have ht : t.kind ≠ .eof := (hcs t List.mem_cons_self).1
  have hcut : (Parser.advance >>= f) (σ.cut (t :: cs)) = f t (σ.cut cs) := bind_eq_of_ok (advance_eq ht)
  have hjoined : (Parser.advance >>= f') (σ.joined (t :: cs)) = f' t (σ.joined cs) :=
    bind_eq_of_ok (advance_eq ht)
  rw [hcut] at hb
  rw [hjoined]
  obtain ⟨ds, hds, hus, hcarry⟩ :=
    h cs (hcs.suffix (List.suffix_cons _ _)) (Nat.lt_of_succ_lt_succ hlen) b us hb
  exact ⟨ds, hds.trans (List.suffix_cons _ _), hus, hcarry⟩

theorem Carries.take {s : String} {f f' : Token → Parser α} (hs : Continues s)
    (h : ∀ t, Carries σ n (f t) (f' t) G) (hp : Carries σ (n + 1) p p' G) :
    Carries σ (n + 1) (Parser.sees s >>= fun b => if b = true then advance >>= f else p)
      (Parser.sees s >>= fun b => if b = true then advance >>= f' else p') G := by
  intro cs hcs hlen
  cases cs with
  | nil =>
    refine .look (a := false) (sees_eq (.cons (Seam.spells_end s))) (sees_eq (.cons (Seam.spells_next hs))) ?_
    exact hp [] hcs hlen
  | cons t cs => exact (CarriesFrom.sees (.ite (.advance (h t)) (hp.from t))) cs hcs hlen

theorem Carries.takeAny {texts : List String} {f f' : Token → Parser α} (hs : ∀ s ∈ texts, Continues s)
    (h : ∀ t, Carries σ n (f t) (f' t) G) (hp : Carries σ (n + 1) p p' G) :
    Carries σ (n + 1) (Parser.seesAny texts >>= fun b => if b = true then advance >>= f else p)
      (Parser.seesAny texts >>= fun b => if b = true then advance >>= f' else p') G := by
  intro cs hcs hlen
  cases cs with
  | nil =>
    refine .look (a := false) (seesAny_eq_false (.cons fun s _ => Seam.spells_end s))
      (seesAny_eq_false (.cons fun s hmem => Seam.spells_next (hs s hmem))) ?_
    exact hp [] hcs hlen
  | cons t cs => exact (CarriesFrom.seesAny (.ite (.advance (h t)) (hp.from t))) cs hcs hlen

/-- A token that is asked for is not found at the end. -/
theorem Carries.demand {p : Parser Token} {f f' : Token → Parser β} {q : Token → Bool} {w : Wanted}
    (hp : ∀ t ts, p (t :: ts) = (if q t = true then advance else failFor w) (t :: ts))
    (hend : q (Token.endAt σ.place) = false)
    (h : ∀ t, q t = true → t.pos.line < σ.next.pos.line → Carries σ n (f t) (f' t) H) :
    Carries σ (n + 1) (p >>= f) (p >>= f') H := by
  intro cs hcs hlen
  cases cs with
  | nil =>
    intro b us hb
    obtain ⟨a, mid, ha, -⟩ := bind_ok.1 hb
    rw [show σ.cut [] = [Token.endAt σ.place] from rfl, hp, if_neg (by simp [hend])] at ha
    cases ha
  | cons t cs =>
    by_cases ht : q t = true
    · have hadvance : CarriesFrom σ t (n + 1) (Parser.advance >>= f) (Parser.advance >>= f') H :=
        .advance (h t ht (hcs t List.mem_cons_self).2)
      have heq (g : Token → Parser β) (ts : List Token) :
          (p >>= g) (t :: ts) = (Parser.advance >>= g) (t :: ts) := by
        have hpt := (hp t ts).trans (congrFun (if_pos ht) _)
        show EStateM.bind p g (t :: ts) = EStateM.bind Parser.advance g (t :: ts)
        rw [EStateM.bind, EStateM.bind, hpt]
      intro b us hb
      obtain ⟨ds, hds, hus, hcarry⟩ := hadvance cs hcs hlen b us ((heq f _).symm.trans hb)
      exact ⟨ds, hds, hus, fun hsure => (heq f' _).trans (hcarry hsure)⟩
    · intro b us hb
      obtain ⟨a, mid, ha, -⟩ := bind_ok.1 hb
      rw [show σ.cut (t :: cs) = t :: σ.cut cs from rfl, hp, if_neg ht] at ha
      cases ha

theorem Carries.expect {s : String} {f f' : Token → Parser β}
    (h : ∀ t, t.pos.line < σ.next.pos.line → Carries σ n (f t) (f' t) H) :
    Carries σ (n + 1) (expect s >>= f) (expect s >>= f') H :=
  .demand (q := (·.spells s)) (fun _ _ => rfl) (Seam.spells_end s) fun t _ => h t

theorem Carries.ident {f f' : Token → Parser β} (h : ∀ t, Carries σ n (f t) (f' t) H) :
    Carries σ (n + 1) (expectIdent >>= f) (expectIdent >>= f') H :=
  .demand (q := (decide <| ·.kind = .ident)) (fun _ _ => rfl) rfl fun t _ _ => h t

/-- Where a token is expected next, nothing was read before the end. -/
theorem Carries.closed {s : String} {f f' : α → Token → Parser β} (hp : Carries σ n p p' G)
    (hf : ∀ a t, Carries σ n (f a t) (f' a t) H) :
    Carries σ n (p >>= fun a => Parser.expect s >>= f a) (p' >>= fun a => Parser.expect s >>= f' a) H := by
  refine hp.bind (fun a => .weaken (.expect fun t _ => hf a t)) fun a b us hb => ?_
  have hfail : Parser.expect s (σ.cut []) = .error _ _ := skip_eq (.cons (Seam.spells_end s))
  rw [bind_eq_of_error hfail] at hb
  cases hb

end Carrying

/-! ### Recursion -/

section Recursion

variable {σ : Seam} {α : Type} {G : α → Prop} {n : Nat}

/-- The bound is not less than the tokens left, so it is not what ends the recursion. -/
theorem Carries.bounded {turn turn' : Parser α → Parser α} {f g : Nat → Parser α}
    (hturn : ∀ k < n, ∀ p q, Carries σ k p q G → Carries σ (k + 1) (turn p) (turn' q) G)
    (hf : ∀ m, f (m + 1) = turn (f m)) (hg : ∀ m, g (m + 1) = turn' (g m)) :
    Carries σ n (Parser.left >>= f) (Parser.left >>= g) G := by
  refine .left fun k hk m hm => ?_
  have hunrolled : Unrolled k turn turn' fun p q => Carries σ k p q G :=
    .of_turn (fun j p q => Carries σ j p q G) (fun _ _ => .zero) fun j hj =>
      hturn j (Nat.lt_of_lt_of_le hj hk)
  exact hunrolled f g hf hg k m (Nat.le_refl k) hm

/-- Going on from a value, whatever it is. -/
def CarriesOn (σ : Seam) (n : Nat) (p q : α → Parser α) : Prop := ∀ a, Carries σ n (p a) (q a) fun _ => True

theorem CarriesOn.bounded {turn turn' : (α → Parser α) → α → Parser α} {f g : Nat → α → Parser α}
    (hturn : ∀ k < n, ∀ p q, CarriesOn σ k p q → CarriesOn σ (k + 1) (turn p) (turn' q))
    (hf : ∀ m, f (m + 1) = turn (f m)) (hg : ∀ m, g (m + 1) = turn' (g m)) :
    CarriesOn σ n (fun a => left >>= fun m => f m a) fun a => left >>= fun m => g m a := by
  refine fun a => .left fun k hk m hm => ?_
  have hunrolled : Unrolled k turn turn' fun p q => CarriesOn σ k p q :=
    .of_turn (fun j p q => CarriesOn σ j p q) (fun _ _ _ => .zero) fun j hj =>
      hturn j (Nat.lt_of_lt_of_le hj hk)
  exact hunrolled f g hf hg k m (Nat.le_refl k) hm a

end Recursion

end Parser

end Snack
