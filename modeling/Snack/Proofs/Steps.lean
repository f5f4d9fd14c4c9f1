/-! Laws of steps that can fail, with or without a state that they change. A sequence of steps succeeds
if each of them does, from what the steps before it leave. -/

namespace Snack

/-! ### Results without a state -/

section Results

variable {ε α β : Type}

theorem except_bind_ok {x : Except ε α} {f : α → Except ε β} {b : β} :
    (x >>= f) = .ok b ↔ ∃ a, x = .ok a ∧ f a = .ok b := by
  cases x <;> simp [bind, Except.bind]

theorem except_map_ok {x : Except ε α} {f : α → β} {b : β} :
    (f <$> x) = .ok b ↔ ∃ a, x = .ok a ∧ f a = b := by
  cases x <;> simp [Functor.map, Except.map]

theorem except_pure_ok {a b : α} : (pure a : Except ε α) = .ok b ↔ a = b := by
  simp [pure, Except.pure]

theorem except_throw_ok {e : ε} {a : α} : ¬ (throw e : Except ε α) = .ok a := by
  simp [throw, throwThe, MonadExceptOf.throw]

theorem option_mapM_ok {f : α → Except ε β} {o : Option α} {r : Option β} :
    o.mapM f = .ok r ↔ (o = none ∧ r = none) ∨ ∃ a b, o = some a ∧ r = some b ∧ f a = .ok b := by
  cases o with
  | none =>
    show (pure none : Except ε (Option β)) = .ok r ↔ _
    rw [except_pure_ok]
    grind
  | some a =>
    show (some <$> f a) = .ok r ↔ _
    rw [except_map_ok]
    grind

end Results

/-! ### Results with a state -/

section Steps

variable {ε σ α β : Type} {s s' : σ}

theorem bind_ok {x : EStateM ε σ α} {f : α → EStateM ε σ β} {b : β} :
    (x >>= f) s = .ok b s' ↔ ∃ a s₁, x s = .ok a s₁ ∧ f a s₁ = .ok b s' := by
  simp only [bind, EStateM.bind]
  cases x s <;> simp [and_assoc]

theorem pure_ok {a b : α} : (pure a : EStateM ε σ α) s = .ok b s' ↔ a = b ∧ s = s' := by
  simp [pure, EStateM.pure]

theorem throw_ok {e : ε} {a : α} : ¬ (throw e : EStateM ε σ α) s = .ok a s' := by
  intro h
  cases h

theorem modify_ok {f : σ → σ} {u : Unit} : (modify f : EStateM ε σ Unit) s = .ok u s' ↔ f s = s' := by
  show EStateM.Result.ok () (f s) = .ok u s' ↔ f s = s'
  simp

theorem get_ok {a : σ} : (get : EStateM ε σ σ) s = .ok a s' ↔ s = a ∧ s = s' := by
  show EStateM.Result.ok s s = .ok a s' ↔ s = a ∧ s = s'
  simp

/-- What a step leaves: a value and a state with one property, or a failure with another. -/
def Leaves (Q : α → σ → Prop) (E : ε → Prop) : EStateM.Result ε σ α → Prop
  | .ok a s => Q a s
  | .error e _ => E e

theorem leaves_imp {r : EStateM.Result ε σ α} {Q R : α → σ → Prop} {E F : ε → Prop} (h : Leaves Q E r)
    (hQR : ∀ a s, Q a s → R a s) (hEF : ∀ e, E e → F e) : Leaves R F r := by
  cases r with
  | ok a s => exact hQR a s h
  | error e s => exact hEF e h

theorem leaves_bind {x : EStateM ε σ α} {f : α → EStateM ε σ β} {Q : α → σ → Prop}
    {R : β → σ → Prop} {E : ε → Prop}
    (hx : Leaves Q E (x s)) (hf : ∀ a s₁, Q a s₁ → Leaves R E (f a s₁)) : Leaves R E ((x >>= f) s) := by
  show Leaves R E (EStateM.bind x f s)
  unfold EStateM.bind
  cases h : x s with
  | ok a s₁ =>
    rw [h] at hx
    exact hf a s₁ hx
  | error e s₁ =>
    rw [h] at hx
    exact hx

end Steps

end Snack
