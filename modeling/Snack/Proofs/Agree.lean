import Snack.Pos

/-! Two runs side by side. They agree if both succeed or both fail; how their failures compare is left
open. Mostly they have the same cause, and the one shows where a function on places takes the other. -/

namespace Snack

/-- A failure at another place. -/
def Located.move {ε : Type} (f : Pos → Pos) (e : Located ε) : Located ε := ⟨e.cause, f e.pos⟩

/-- A failure of the same cause that shows where `f` takes the place of the first. A place counts only if
the cause is one that is `told` with its place. -/
structure Located.MovesTo {ε : Type} (told : ε → Prop) (f : Pos → Pos) (e d : Located ε) : Prop where
  cause : e.cause = d.cause
  pos : told e.cause → d.pos = f e.pos

theorem Located.MovesTo.at {ε : Type} {told : ε → Prop} {f : Pos → Pos} (c : ε) (p : Pos) :
    MovesTo told f ⟨c, p⟩ ⟨c, f p⟩ :=
  ⟨rfl, fun _ => rfl⟩

/-- Where places do not count nothing has to move. -/
theorem Located.MovesTo.untold {ε : Type} {told : ε → Prop} {f : Pos → Pos} {e : Located ε}
    (h : ¬ told e.cause) : MovesTo told f e e :=
  ⟨rfl, fun htold => absurd htold h⟩

/-! ### Results without a state -/

section Results

variable {ε α β : Type} {E : Located ε → Located ε → Prop}

/-- The second value is the image of the first. -/
def Image (f : α → β) (a : α) (b : β) : Prop := b = f a

/-- Two results that are the same but for the place of a failure. -/
def Same (x y : Except (Located ε) α) : Prop := x.mapError Located.cause = y.mapError Located.cause

/-- Results that are the same through `f`, taken apart. -/
theorem Same.cases {x y : Except (Located ε) α} {f : α → β} (h : Same (f <$> x) (f <$> y)) :
    (∃ a b, x = .ok a ∧ y = .ok b ∧ f a = f b) ∨
      ∃ e d, x = .error e ∧ y = .error d ∧ e.cause = d.cause := by
  cases x with
  | error e =>
    cases y with
    | error d => exact .inr ⟨e, d, rfl, rfl, Except.error.inj h⟩
    | ok b => cases h
  | ok a =>
    cases y with
    | error d => cases h
    | ok b => exact .inl ⟨a, b, rfl, rfl, Except.ok.inj h⟩

/-- Two results: related values, or failures that compare. -/
def Parallel (E : Located ε → Located ε → Prop) (R : α → β → Prop) :
    Except (Located ε) α → Except (Located ε) β → Prop
  | .ok a, .ok b => R a b
  | .error e, .error d => E e d
  | _, _ => False

theorem Parallel.ok (a : α) : Parallel E Eq (.ok a) (.ok a) := rfl

/-- The results go on from the same value. -/
theorem Parallel.bind {x y : Except (Located ε) α} {f g : α → Except (Located ε) β}
    (h : Parallel E Eq x y) (hf : ∀ a, x = .ok a → Parallel E Eq (f a) (g a)) :
    Parallel E Eq (x >>= f) (y >>= g) := by
  cases x with
  | error e =>
    cases y with
    | error d => exact h
    | ok b => exact h.elim
  | ok a =>
    cases y with
    | error d => exact h.elim
    | ok b =>
      obtain rfl : a = b := h
      exact hf a rfl

theorem Parallel.cases {R : α → β → Prop} {x : Except (Located ε) α} {y : Except (Located ε) β}
    (h : Parallel E R x y) :
    (∃ a b, x = .ok a ∧ y = .ok b ∧ R a b) ∨ ∃ e d, x = .error e ∧ y = .error d ∧ E e d := by
  cases x <;> cases y
  · exact .inr ⟨_, _, rfl, rfl, h⟩
  · exact h.elim
  · exact h.elim
  · exact .inl ⟨_, _, rfl, rfl, h⟩

theorem Parallel.map {x y : Except (Located ε) α} {f : α → β} (h : Parallel E Eq x y) :
    Parallel E Eq (f <$> x) (f <$> y) := by
  rw [map_eq_pure_bind, map_eq_pure_bind]
  exact h.bind fun _ _ => .ok _

/-- The second result goes on from the image. -/
theorem Parallel.image {α' β' : Type} {R : β → β' → Prop} {φ : α → α'} {x : Except (Located ε) α}
    {y : Except (Located ε) α'} {f : α → Except (Located ε) β} {g : α' → Except (Located ε) β'}
    (h : Parallel E (Image φ) x y) (hf : ∀ a, Parallel E R (f a) (g (φ a))) :
    Parallel E R (x >>= f) (y >>= g) := by
  rcases h.cases with ⟨a, b, rfl, rfl, rfl⟩ | ⟨e, d, rfl, rfl, hed⟩
  · exact hf a
  · exact hed

end Results

/-! ### Runs with a state -/

section Runs

variable {ε σ α β γ δ : Type} {E : Located ε → Located ε → Prop} {I : σ → σ → Prop}
variable {R : α → β → Prop} {S : γ → δ → Prop}

/-- Two outcomes: related values and states, or failures that compare. -/
def Both (E : Located ε → Located ε → Prop) (I : σ → σ → Prop) (R : α → β → Prop) :
    EStateM.Result (Located ε) σ α → EStateM.Result (Located ε) σ β → Prop
  | .ok a s, .ok b t => I s t ∧ R a b
  | .error e _, .error d _ => E e d
  | _, _ => False

/-- From related states the runs end in the same way. -/
def Agrees (E : Located ε → Located ε → Prop) (I : σ → σ → Prop) (R : α → β → Prop)
    (x : EStateM (Located ε) σ α) (y : EStateM (Located ε) σ β) : Prop :=
  ∀ s t, I s t → Both E I R (x s) (y t)

/-- Two values that have the same image. -/
def Like (f : α → β) (a b : α) : Prop := f a = f b

variable {x : EStateM (Located ε) σ α} {y : EStateM (Located ε) σ β}
variable {f : α → EStateM (Located ε) σ γ} {g : β → EStateM (Located ε) σ δ}

theorem Agrees.refl (h : ∀ s e s', x s = .error e s' → E e e) : Agrees E Eq Eq x x := by
  rintro s _ rfl
  cases hx : x s with
  | ok a s' => exact ⟨rfl, rfl⟩
  | error e s' => exact h s e s' hx

theorem Agrees.pure {a : α} {b : β} (h : R a b) :
    Agrees E I R (pure a : EStateM (Located ε) σ α) (pure b) :=
  fun _ _ hst => ⟨hst, h⟩

/-! One of two runs may stop early, in a way that says nothing about the other. -/

/-- The run stops with a failure of the kind `S`. -/
def Stops (S : Located ε → Prop) : EStateM.Result (Located ε) σ α → Prop
  | .ok _ _ => False
  | .error e _ => S e

theorem Stops.bind {S : Located ε → Prop} {s : σ} (h : Stops S (x s)) : Stops S ((x >>= f) s) := by
  show Stops S (EStateM.bind x f s)
  unfold EStateM.bind
  cases hx : x s with
  | ok a s' =>
    rw [hx] at h
    exact h.elim
  | error e s' =>
    rw [hx] at h
    exact h

/-- Two outcomes that compare, unless the first is a failure of the kind `S` or the second one of the kind
`T`. -/
def BothUnless (S T : Located ε → Prop) (E : Located ε → Located ε → Prop) (I : σ → σ → Prop)
    (R : α → β → Prop) (r : EStateM.Result (Located ε) σ α) (r' : EStateM.Result (Located ε) σ β) : Prop :=
  Stops S r ∨ Stops T r' ∨ Both E I R r r'

/-- From related states the runs end in the same way, unless one of them stops early. -/
def AgreesUnless (S T : Located ε → Prop) (E : Located ε → Located ε → Prop) (I : σ → σ → Prop)
    (R : α → β → Prop) (x : EStateM (Located ε) σ α) (y : EStateM (Located ε) σ β) : Prop :=
  ∀ s t, I s t → BothUnless S T E I R (x s) (y t)

section Unless

variable {S T : Located ε → Prop}

theorem Both.unless {r : EStateM.Result (Located ε) σ α} {r' : EStateM.Result (Located ε) σ β}
    (h : Both E I R r r') : BothUnless S T E I R r r' :=
  .inr (.inr h)

theorem bothUnless_error {e d : Located ε} {s t : σ} (h : E e d) :
    BothUnless S T E I R (.error e s : EStateM.Result (Located ε) σ α) (.error d t) :=
  .inr (.inr h)

theorem Agrees.unless (h : Agrees E I R x y) : AgreesUnless S T E I R x y :=
  fun s t hst => (h s t hst).unless

theorem AgreesUnless.pure {a : α} {b : β} (h : R a b) :
    AgreesUnless S T E I R (pure a : EStateM (Located ε) σ α) (pure b) :=
  Agrees.unless (.pure h)

/-- What follows is looked at only where the first run gives a value. -/
theorem AgreesUnless.bindOk {Q : γ → δ → Prop} (h : AgreesUnless S T E I R x y)
    (hf : ∀ a b s s', x s = .ok a s' → R a b → AgreesUnless S T E I Q (f a) (g b)) :
    AgreesUnless S T E I Q (x >>= f) (y >>= g) := by
  intro s t hst
  rcases h s t hst with hx | hy | hxy
  · exact .inl hx.bind
  · exact .inr (.inl hy.bind)
  show BothUnless S T E I Q (EStateM.bind x f s) (EStateM.bind y g t)
  unfold EStateM.bind
  cases hx : x s with
  | error e s' =>
    rw [hx] at hxy
    cases hy : y t with
    | error d t' =>
      rw [hy] at hxy
      exact bothUnless_error hxy
    | ok b t' =>
      rw [hy] at hxy
      exact hxy.elim
  | ok a s' =>
    rw [hx] at hxy
    cases hy : y t with
    | error d t' =>
      rw [hy] at hxy
      exact hxy.elim
    | ok b t' =>
      rw [hy] at hxy
      exact hf a b s s' hx hxy.2 s' t' hxy.1

theorem AgreesUnless.bind {Q : γ → δ → Prop} (h : AgreesUnless S T E I R x y)
    (hf : ∀ a b, R a b → AgreesUnless S T E I Q (f a) (g b)) :
    AgreesUnless S T E I Q (x >>= f) (y >>= g) :=
  h.bindOk fun a b _ _ _ hab => hf a b hab

theorem AgreesUnless.next {Q : γ → δ → Prop} {x y : EStateM (Located ε) σ α}
    {f : α → EStateM (Located ε) σ γ} {g : α → EStateM (Located ε) σ δ} (h : AgreesUnless S T E I Eq x y)
    (hf : ∀ a, AgreesUnless S T E I Q (f a) (g a)) : AgreesUnless S T E I Q (x >>= f) (y >>= g) := by
  refine h.bind fun a b hab => ?_
  subst hab
  exact hf a

theorem AgreesUnless.image {Q : γ → δ → Prop} {φ : α → β} (h : AgreesUnless S T E I (Image φ) x y)
    (hf : ∀ a, AgreesUnless S T E I Q (f a) (g (φ a))) : AgreesUnless S T E I Q (x >>= f) (y >>= g) := by
  refine h.bind fun a b hab => ?_
  rw [show b = φ a from hab]
  exact hf a

/-- Nothing happens behind a failure. -/
theorem AgreesUnless.stop {Q : γ → δ → Prop} (h : AgreesUnless S T E I (fun _ _ => False) x y) :
    AgreesUnless S T E I Q (x >>= f) (y >>= g) :=
  h.bind fun _ _ hab => hab.elim

theorem AgreesUnless.ite_iff {c d : Prop} [Decidable c] [Decidable d] {x' : EStateM (Located ε) σ α}
    {y' : EStateM (Located ε) σ β} (hcd : c ↔ d) (h : c → AgreesUnless S T E I R x y)
    (h' : ¬c → AgreesUnless S T E I R x' y') :
    AgreesUnless S T E I R (if c then x else x') (if d then y else y') := by
  by_cases hc : c
  · rw [if_pos hc, if_pos (hcd.1 hc)]
    exact h hc
  · rw [if_neg hc, if_neg (mt hcd.2 hc)]
    exact h' hc

theorem AgreesUnless.ite {c : Prop} [Decidable c] {x' : EStateM (Located ε) σ α}
    {y' : EStateM (Located ε) σ β} (h : AgreesUnless S T E I R x y) (h' : AgreesUnless S T E I R x' y') :
    AgreesUnless S T E I R (if c then x else x') (if c then y else y') :=
  .ite_iff Iff.rfl (fun _ => h) fun _ => h'

theorem AgreesUnless.impOk {R' : α → β → Prop} (h : AgreesUnless S T E I R x y)
    (hR : ∀ a b s s', x s = .ok a s' → R a b → R' a b) : AgreesUnless S T E I R' x y := by
  intro s t hst
  rcases h s t hst with hx | hy | hxy
  · exact .inl hx
  · exact .inr (.inl hy)
  refine .inr (.inr ?_)
  cases hx : x s <;> cases hy : y t <;> rw [hx, hy] at hxy
  · exact ⟨hxy.1, hR _ _ _ _ hx hxy.2⟩
  · exact hxy
  · exact hxy
  · exact hxy

theorem AgreesUnless.imp {R' : α → β → Prop} (h : AgreesUnless S T E I R x y)
    (hR : ∀ a b, R a b → R' a b) : AgreesUnless S T E I R' x y :=
  h.impOk fun a b _ _ _ hab => hR a b hab

end Unless

/-- Runs that never stop early. -/
theorem agrees_iff : Agrees E I R x y ↔ AgreesUnless (fun _ => False) (fun _ => False) E I R x y := by
  refine ⟨Agrees.unless, fun h s t hst => ?_⟩
  have hnever {γ : Type} {r : EStateM.Result (Located ε) σ γ} : ¬ Stops (fun _ => False) r := by
    cases r <;> exact id
  rcases h s t hst with hx | hy | hxy
  · exact absurd hx hnever
  · exact absurd hy hnever
  · exact hxy

theorem Agrees.bindOk (h : Agrees E I R x y)
    (hf : ∀ a b s s', x s = .ok a s' → R a b → Agrees E I S (f a) (g b)) :
    Agrees E I S (x >>= f) (y >>= g) :=
  agrees_iff.2 (h.unless.bindOk fun a b s s' hx hab => (hf a b s s' hx hab).unless)

theorem Agrees.bind (h : Agrees E I R x y) (hf : ∀ a b, R a b → Agrees E I S (f a) (g b)) :
    Agrees E I S (x >>= f) (y >>= g) :=
  h.bindOk fun a b _ _ _ hab => hf a b hab

/-- The runs go on from the same value. -/
theorem Agrees.next {x y : EStateM (Located ε) σ α} {f : α → EStateM (Located ε) σ γ}
    {g : α → EStateM (Located ε) σ δ} (h : Agrees E I Eq x y) (hf : ∀ a, Agrees E I S (f a) (g a)) :
    Agrees E I S (x >>= f) (y >>= g) := by
  refine h.bind fun a b hab => ?_
  subst hab
  exact hf a

theorem Agrees.nextOk {x y : EStateM (Located ε) σ α} {f : α → EStateM (Located ε) σ γ}
    {g : α → EStateM (Located ε) σ δ} (h : Agrees E I Eq x y)
    (hf : ∀ a s s', x s = .ok a s' → Agrees E I S (f a) (g a)) :
    Agrees E I S (x >>= f) (y >>= g) := by
  refine h.bindOk fun a b s s' hx hab => ?_
  subst hab
  exact hf a s s' hx

/-- The second run goes on from the image. -/
theorem Agrees.image {φ : α → β} (h : Agrees E I (Image φ) x y)
    (hf : ∀ a, Agrees E I S (f a) (g (φ a))) : Agrees E I S (x >>= f) (y >>= g) := by
  refine h.bind fun a b hab => ?_
  rw [show b = φ a from hab]
  exact hf a

theorem Agrees.throw {e d : Located ε} (h : E e d) :
    Agrees E I R (throw e : EStateM (Located ε) σ α) (throw d) :=
  fun _ _ _ => h

end Runs

end Snack
