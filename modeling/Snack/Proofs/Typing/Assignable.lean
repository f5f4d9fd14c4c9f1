import Snack.Proofs.Typing.Rules

/-! The order of types by what may be stored where. Types that are the same are equal, and a type that may
be stored in a second one may be stored wherever that may. -/

namespace Snack

/-! ### Equivalent types are equal -/

namespace Ty

mutual

theorem eq_of_equiv {a b : Ty} (h : a.equiv b = true) : a = b := by
  cases a <;> cases b <;> simp [equiv] at h
  case prim.prim => rw [h]
  case array.array => rw [eq_of_equiv h]
  case dict.dict => rw [eq_of_equiv h.1, eq_of_equiv h.2]
  case tuple.tuple => rw [eq_of_equivAll h]
  case optional.optional => rw [eq_of_equiv h]
  case function.function => rw [eq_of_equivAll h.1, eq_of_equiv h.2]
  case struct.struct => rw [h]

theorem eq_of_equivAll {as bs : List Ty} (h : equivAll as bs = true) : as = bs := by
  cases as <;> cases bs <;> simp [equivAll] at h
  case nil.nil => rfl
  case cons.cons => rw [eq_of_equiv h.1, eq_of_equivAll h.2]

end

theorem equivAll_self {ts : List Ty} (h : ∀ t ∈ ts, t.equiv t = true) : equivAll ts ts = true := by
  induction ts with
  | nil => rfl
  | cons t ts ih =>
    rw [equivAll, h t List.mem_cons_self, ih fun u hu => h u (List.mem_cons_of_mem _ hu)]
    rfl

theorem Known.equiv_self {t : Ty} (h : t.Known) : t.equiv t = true := by
  induction h with
  | prim p => simp [equiv]
  | array _ ih => simpa [equiv] using ih
  | dict _ _ ihk ihv => simp [equiv, ihk, ihv]
  | tuple _ ih => simpa [equiv] using equivAll_self ih
  | optional _ ih => simpa [equiv] using ih
  | function _ _ ihp ihr => simp [equiv, equivAll_self ihp, ihr]
  | struct s => simp [equiv]

theorem Known.assignable_self {t : Ty} (h : t.Known) : t.assignable t = true := by
  have heq := h.equiv_self
  unfold assignable
  cases t <;> simp_all [flows, equiv]

/-! ### Steps in a row -/

/-- One type flows into another if that takes anything, if they are the same, or if both are types of
functions whose results and parameters flow. -/
theorem flows_cases {up : Bool} {a b : Ty} (h : flows up a b = true) :
    (if up then b else a) = any ∨ a = b ∨ ∃ ps r qs s, a = function ps r ∧ b = function qs s ∧
      flows up r s = true ∧ flowsAll (!up) ps qs = true := by
  unfold flows at h
  split at h
  · next ps r qs s =>
    rcases Bool.or_eq_true_iff.1 h with h | h
    · obtain ⟨hps, hr⟩ := Bool.and_eq_true_iff.1 h
      exact .inr (.inl (by rw [eq_of_equivAll hps, eq_of_equiv hr]))
    · obtain ⟨hr, hps⟩ := Bool.and_eq_true_iff.1 h
      exact .inr (.inr ⟨ps, r, qs, s, rfl, rfl, hr, hps⟩)
  · rcases Bool.or_eq_true_iff.1 h with h | h
    · exact .inl (eq_of_equiv h)
    · exact .inr (.inl (eq_of_equiv h))

theorem flows_of_any {up : Bool} {a b : Ty} (h : (if up then b else a) = any) : flows up a b = true := by
  cases up <;> simp only [Bool.false_eq_true, if_false, if_true] at h <;> subst h
  · cases b <;> simp [flows, equiv]
  · cases a <;> simp [flows, equiv]

theorem eq_any_of_flows {up : Bool} {a b : Ty} (h : flows up a b = true)
    (hany : (if up then a else b) = any) : (if up then b else a) = any := by
  rcases flows_cases h with h | rfl | ⟨ps, r, qs, s, rfl, rfl, -, -⟩
  · exact h
  · cases up <;> exact hany
  · cases up <;> cases hany

mutual

theorem flows_trans {up : Bool} {a b c : Ty} (hab : flows up a b = true) (hbc : flows up b c = true) :
    flows up a c = true := by
  rcases flows_cases hab with h | rfl | ⟨ps, r, qs, s, rfl, rfl, hr, hps⟩
  · cases up with
    | false => exact flows_of_any h
    | true =>
      have hc : (if true then c else b) = any := eq_any_of_flows hbc h
      exact flows_of_any hc
  · exact hbc
  · rcases flows_cases hbc with h | rfl | ⟨qs, s, us, v, ⟨⟩, rfl, hs, hqs⟩
    · cases up with
      | false => cases h
      | true => exact flows_of_any h
    · exact hab
    · rw [flows, flows_trans hr hs, flowsAll_trans hps hqs]
      exact Bool.or_true _

theorem flowsAll_trans {up : Bool} {as bs cs : List Ty} (hab : flowsAll up as bs = true)
    (hbc : flowsAll up bs cs = true) : flowsAll up as cs = true := by
  cases as <;> cases bs <;> cases cs <;> simp only [flowsAll, Bool.and_eq_true, reduceCtorEq] at hab hbc ⊢
  exact ⟨flows_trans hab.1 hbc.1, flowsAll_trans hab.2 hbc.2⟩

end

theorem assignable_trans {a b c : Ty} (hab : a.assignable b = true) (hbc : b.assignable c = true) :
    a.assignable c = true :=
  flows_trans hab hbc

/-- What may be stored as a value of a basic type is one, if that is not the type of anything. -/
theorem eq_of_assignable_prim {a : Ty} {p : Prim} (h : a.assignable (prim p) = true) (hp : p ≠ .any) :
    a = prim p := by
  rcases flows_cases h with h | h | ⟨_, _, _, _, _, h, _⟩
  · exact absurd (by injection h) hp
  · exact h
  · cases h

end Ty

/-! ### Basic types -/

namespace Typing

theorem prim_of_isNumericOrString {t : Ty} (h : t.isNumericOrString = true) :
    ∃ p : Prim, p ≠ .any ∧ t = .prim p := by
  simp only [Ty.isNumericOrString, Ty.isNumeric, Bool.or_eq_true] at h
  rcases h with (h | h) | h <;> exact ⟨_, by decide, Ty.eq_of_equiv h⟩

theorem prim_of_isNumeric {t : Ty} (h : t.isNumeric = true) : ∃ p : Prim, p ≠ .any ∧ t = .prim p :=
  prim_of_isNumericOrString (by rw [Ty.isNumericOrString, h, Bool.true_or])

theorem prim_of_unaryRule {op : UnaryOp} {t : Ty} (h : UnaryRule op t) :
    ∃ p : Prim, p ≠ .any ∧ t = .prim p := by
  cases h with
  | neg ht => exact prim_of_isNumeric ht
  | not => exact ⟨.bool, by decide, rfl⟩

end Typing

end Snack
