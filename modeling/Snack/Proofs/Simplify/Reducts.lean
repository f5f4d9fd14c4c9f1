import Snack.Proofs.Core.Entities
import Snack.Simplify.Stmt

/-! What the operations of a program come down to. A simplified expression refers to nothing that it did not refer
to before. -/

namespace Snack.Simplify

open Snack.Core

/-! ### What an operation comes down to -/

/-- The operators that may come down to one of their operands. -/
def absorbing : List BinaryOp := [.and, .or, .add, .sub, .mul, .div, .pow]

/-- What an operation of type `t` on `l` and `r` can give way to, by its operator. -/
inductive Reduces (l r : Expr) : BinaryOp → Ty → Expr → Prop where
  | present {t u} (h : l = .emptyOptional u) : Reduces l r .coalesce t r
  | left {op t} (h : op ∈ absorbing) : Reduces l r op t l
  | right {op t} (h : op ∈ absorbing) : Reduces l r op t r
  | negated {t} (h : number? r = none) : Reduces l r .sub t (.unary .neg r r.typ)
  | oneInt : Reduces l r .pow .int (.int 1)
  | oneFloat {t} (h : t ≠ .int) : Reduces l r .pow t (.float Number.one)
  | folded {op t x y v} (hl : number? l = some x) (hr : number? r = some y)
      (h : Number.fold? x op y = some v) : Reduces l r op t (ofValue v)

/-- The expressions that an operation on `l` and `r` can give way to. -/
inductive Reduct (l r : Expr) : Expr → Prop where
  | left : Reduct l r l
  | right : Reduct l r r
  | negated (h : number? r = none) : Reduct l r (.unary .neg r r.typ)
  | literal (v : Number.Value) : Reduct l r (ofValue v)

section Reducts

variable {op : BinaryOp} {l r e : Expr} {t : Ty}

theorem reduces_withLeft {x : Number} (hr : number? r = none) (h : withLeft x op l r = some e) :
    Reduces l r op t e := by
  unfold withLeft at h
  split at h
  · split at h <;> cases h
    exact .right (by decide)
  · split at h
    · cases h
      exact .right (by decide)
    · split at h <;> cases h
      exact .left (by decide)
  · split at h <;> cases h
    exact .negated hr
  · split at h <;> cases h
    exact .left (by decide)
  · split at h <;> cases h
    exact .left (by decide)
  · cases h

theorem reduces_withRight {y : Number} (h : withRight op y l r t = some e) : Reduces l r op t e := by
  unfold withRight at h
  split at h
  · split at h <;> cases h
    exact .left (by decide)
  · split at h <;> cases h
    exact .left (by decide)
  · split at h <;> cases h
    exact .left (by decide)
  · split at h
    · cases h
      exact .left (by decide)
    · split at h <;> cases h
      exact .right (by decide)
  · split at h
    · split at h <;> cases h
      · exact .oneInt
      · next ht => exact .oneFloat ht
    · cases h
  · cases h

theorem reduces_binary? (h : binary? op l r t = some e) : Reduces l r op t e := by
  unfold binary? at h
  split at h
  · split at h <;> cases h
    exact .present rfl
  · split at h <;> cases h
    · exact .right (by decide)
    · exact .left (by decide)
  · split at h <;> cases h
    · exact .right (by decide)
    · exact .left (by decide)
  · split at h
    · next hl hr =>
      obtain ⟨v, hv, rfl⟩ := Option.map_eq_some_iff.1 h
      exact .folded hl hr hv
    · next hr => exact reduces_withLeft hr h
    · exact reduces_withRight h
    · cases h

theorem Reduces.reduct (h : Reduces l r op t e) : Reduct l r e := by
  cases h with
  | present | right => exact .right
  | left => exact .left
  | negated h => exact .negated h
  | oneInt => exact .literal (.number (.int 1))
  | oneFloat => exact .literal (.number (.float Number.one))
  | folded => exact .literal _

/-- An operation stays as it is or gives way to something simpler. -/
theorem binary_cases (op : BinaryOp) (l r : Expr) (t : Ty) :
    binary op l r t = .binary op l r t ∨ Reduct l r (binary op l r t) := by
  unfold binary
  cases h : binary? op l r t with
  | none => exact .inl rfl
  | some e => exact .inr (reduces_binary? h).reduct

theorem unary_cases (op : UnaryOp) (e : Expr) (t : Ty) :
    unary op e t = .unary op e t ∨ ∃ x, unary op e t = ofNumber x := by
  unfold unary
  split
  · next x _ => exact .inr ⟨x.neg, rfl⟩
  · exact .inl rfl

end Reducts

/-! ### Entities of expressions -/

theorem append_subset_append {α : Type} {as bs cs ds : List α} (h : as ⊆ bs) (h' : cs ⊆ ds) :
    as ++ cs ⊆ bs ++ ds :=
  List.append_subset.2 ⟨List.Subset.trans h (List.subset_append_left _ _),
    List.Subset.trans h' (List.subset_append_right _ _)⟩

theorem entities_ofNumber (x : Number) : (ofNumber x).entities = [] := by
  cases x <;> rfl

theorem Reduct.entities {l r e : Expr} (h : Reduct l r e) : e.entities ⊆ l.entities ++ r.entities := by
  cases h with
  | left => exact List.subset_append_left _ _
  | right => exact List.subset_append_right _ _
  | negated => exact List.subset_append_right _ _
  | literal v =>
    cases v with
    | number x =>
      rw [ofValue, entities_ofNumber]
      exact List.nil_subset _
    | bool b => exact List.nil_subset _

theorem entities_binary (op : BinaryOp) (l r : Expr) (t : Ty) :
    (binary op l r t).entities ⊆ l.entities ++ r.entities := by
  rcases binary_cases op l r t with h | h
  · rw [h]
    exact List.Subset.refl _
  · exact h.entities

theorem entities_unary (op : UnaryOp) (e : Expr) (t : Ty) : (unary op e t).entities ⊆ e.entities := by
  rcases unary_cases op e t with h | ⟨x, h⟩
  · rw [h]
    exact List.Subset.refl _
  · rw [h, entities_ofNumber]
    exact List.nil_subset _

mutual

/-- A simplified expression uses no other entities. -/
theorem entities_expr (e : Expr) : (expr e).entities ⊆ e.entities := by
  cases e with
  | binary op l r t =>
    exact List.Subset.trans (entities_binary _ _ _ _)
      (append_subset_append (entities_expr l) (entities_expr r))
  | unary op e t => exact List.Subset.trans (entities_unary _ _ _) (entities_expr e)
  | call f args t => exact append_subset_append (entities_expr f) (entities_exprs args)
  | construct c args => exact List.cons_subset_cons _ (entities_exprs args)
  | member o op field t => exact entities_expr o
  | array es t => exact entities_exprs es
  | tuple es t => exact entities_exprs es
  | dict es t => exact entities_entries es
  | _ => exact List.Subset.refl _

theorem entities_exprs (es : List Expr) : entitiesOfAll (exprs es) ⊆ entitiesOfAll es := by
  cases es with
  | nil => exact List.Subset.refl _
  | cons e es => exact append_subset_append (entities_expr e) (entities_exprs es)

theorem entities_entries (es : List (Expr × Expr)) :
    entitiesOfEntries (entries es) ⊆ entitiesOfEntries es := by
  cases es with
  | nil => exact List.Subset.refl _
  | cons e es =>
    obtain ⟨k, v⟩ := e
    exact append_subset_append (append_subset_append (entities_expr k) (entities_expr v))
      (entities_entries es)

end

end Snack.Simplify
