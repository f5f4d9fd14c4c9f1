import Mathlib.Data.List.Forall2
import Snack.Proofs.Typing.Assignable

/-! The order of types by what may be stored where. Up to equivalence it is a partial order with the type of
anything on top. The direction turns at the parameters of functions, so the laws are proved for both
directions at once. -/

namespace Snack

/-- A type that the rules know. -/
abbrev KnownTy := {t : Ty // t.Known}

namespace Ty

/-! ### Equivalence -/

theorem equiv_symm {a b : Ty} (h : a.equiv b = true) : b.equiv a = true := by
  obtain rfl := eq_of_equiv h
  exact h

theorem equiv_trans {a b c : Ty} (hab : a.equiv b = true) (hbc : b.equiv c = true) : a.equiv c = true := by
  obtain rfl := eq_of_equiv hab
  exact hbc

theorem equivAll_iff {as bs : List Ty} :
    equivAll as bs = true ↔ List.Forall₂ (fun a b => a.equiv b = true) as bs := by
  induction as generalizing bs with
  | nil => cases bs <;> simp [equivAll]
  | cons a as ih => cases bs <;> simp [equivAll, ih]

/-- A relation of types that every constructor keeps and that shows in the parts again. Two classes are related
only if they are one. -/
structure Congruence (E : Ty → Ty → Prop) : Prop where
  prim (p q : Prim) : E (.prim p) (.prim q) ↔ p = q
  array (a b : Ty) : E (.array a) (.array b) ↔ E a b
  dict (k l v w : Ty) : E (.dict k v) (.dict l w) ↔ E k l ∧ E v w
  tuple (as bs : List Ty) : E (.tuple as) (.tuple bs) ↔ List.Forall₂ E as bs
  optional (a b : Ty) : E (.optional a) (.optional b) ↔ E a b
  function (ps qs : List Ty) (r s : Ty) :
    E (.function ps r) (.function qs s) ↔ List.Forall₂ E ps qs ∧ E r s
  struct (s t : StructRef) : E (.struct s) (.struct t) ↔ s = t

theorem congruence_equiv : Congruence fun a b => a.equiv b = true where
  prim p q := by simp [equiv]
  array a b := by simp [equiv]
  dict k l v w := by simp [equiv]
  tuple as bs := by simp [equiv, equivAll_iff]
  optional a b := by simp [equiv]
  function ps qs r s := by simp [equiv, equivAll_iff]
  struct s t := by simp [equiv]

/-! ### Antisymmetry -/

mutual

theorem flows_antisymm {up : Bool} {a b : Ty} (hab : flows up a b = true) (hba : flows up b a = true) :
    a = b := by
  rcases flows_cases hab with h | rfl | ⟨ps, r, qs, s, rfl, rfl, hr, hps⟩
  · cases up with
    | false =>
      have hb : (if false then a else b) = any := eq_any_of_flows hba h
      exact h.trans hb.symm
    | true =>
      have ha : (if true then a else b) = any := eq_any_of_flows hba h
      exact ha.trans h.symm
  · rfl
  · rcases flows_cases hba with h | h | ⟨_, _, _, _, ⟨⟩, ⟨⟩, hs, hqs⟩
    · cases up <;> cases h
    · exact h.symm
    · rw [flows_antisymm hr hs, flowsAll_antisymm hps hqs]

theorem flowsAll_antisymm {up : Bool} {as bs : List Ty} (hab : flowsAll up as bs = true)
    (hba : flowsAll up bs as = true) : as = bs := by
  cases as <;> cases bs <;> simp only [flowsAll, Bool.and_eq_true, reduceCtorEq] at hab hba ⊢
  rw [flows_antisymm hab.1 hba.1, flowsAll_antisymm hab.2 hba.2]

end

/-! ### The order -/

/-- An order up to `E` in which everything is below `top`, and `top` only below what is the same. -/
structure OrderUpTo {α : Type} (E R : α → α → Prop) (top : α) : Prop where
  respects (a a' b b' : α) : E a a' → E b b' → (R a b ↔ R a' b')
  refl (a : α) : R a a
  trans (a b c : α) : R a b → R b c → R a c
  antisymm (a b : α) : R a b → R b a → E a b
  le_top (a : α) : R a top
  top_le (a : α) : R top a → E a top

/-- The same type, and what may be stored in a slot of a type: an equivalence that all constructors keep, and
up to it a partial order whose greatest type takes anything. -/
theorem assignable_order :
    Equivalence (fun a b : KnownTy => a.1.equiv b.1 = true) ∧
      Congruence (fun a b => a.equiv b = true) ∧
      OrderUpTo (fun a b : KnownTy => a.1.equiv b.1 = true) (fun a b => a.1.assignable b.1 = true)
        ⟨.any, .prim .any⟩ := by
  refine ⟨⟨fun a => a.2.equiv_self, equiv_symm, equiv_trans⟩, congruence_equiv, ?_⟩
  constructor
  case respects =>
    intro a a' b b' ha hb
    rw [eq_of_equiv ha, eq_of_equiv hb]
  case refl => exact fun a => a.2.assignable_self
  case trans => exact fun a b c => assignable_trans
  case antisymm =>
    intro a b hab hba
    rw [flows_antisymm hab hba]
    exact b.2.equiv_self
  case le_top => exact fun a => flows_of_any rfl
  case top_le =>
    intro a h
    have hany : (if true then a.1 else any) = any := eq_any_of_flows h rfl
    rw [show a.1 = any from hany]
    rfl

end Ty

end Snack
