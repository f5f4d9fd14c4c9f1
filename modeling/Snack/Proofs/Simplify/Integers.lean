import Mathlib.Logic.Function.Iterate
import Snack.Proofs.Core.Parts
import Snack.Proofs.Core.Spelled
import Snack.Proofs.Simplify.Writable

/-! Integers that simplification leaves. It can make them negative but not wider. -/

namespace Snack.Simplify

open Snack.Core

/-- All integers in an expression have at most 1024 bits. -/
abbrev Fits (e : Expr) : Prop := e.IntegersIn fun n => Number.fits n = true

theorem fits_ofNumber? {x : Number} {v : Number.Value} (h : Number.Value.ofNumber? x = some v) :
    Fits (ofValue v) := by
  cases x with
  | int n =>
    rw [Number.Value.ofNumber?] at h
    split at h
    · next hfits =>
      cases h
      exact integersIn_int.2 hfits
    · cases h
  | float x =>
    cases h
    exact integersIn_of_inner_nil rfl (by simp [ofValue, ofNumber])

/-- An operation on two constants has no value that is too wide. -/
theorem fits_fold? {x y : Number} {op : BinaryOp} {v : Number.Value} (h : Number.fold? x op y = some v) :
    Fits (ofValue v) := by
  unfold Number.fold? at h
  split at h
  case h_12 => cases h
  case h_1 | h_2 | h_3 | h_4 | h_5 =>
    obtain ⟨z, -, hz⟩ := Option.bind_eq_some_iff.1 h
    exact fits_ofNumber? hz
  all_goals
    cases h
    exact integersIn_of_inner_nil rfl (by simp [ofValue])

theorem fits_binary {op : BinaryOp} {l r : Expr} {t : Ty} (hl : Fits l) (hr : Fits r) :
    Fits (binary op l r t) := by
  unfold binary
  cases hb : binary? op l r t with
  | none => exact integersIn_binary.2 ⟨hl, hr⟩
  | some e =>
    show Fits e
    cases reduces_binary? hb with
    | present | right => exact hr
    | left => exact hl
    | negated => exact integersIn_unary.2 hr
    | oneInt => exact integersIn_int.2 (Number.fits_of_lt (by decide))
    | oneFloat => exact integersIn_of_inner_nil rfl (by simp)
    | folded _ _ hv => exact fits_fold? hv

/-- Negation keeps the width of a constant. -/
theorem fits_unary {op : UnaryOp} {e : Expr} {t : Ty} (he : Fits e) : Fits (unary op e t) := by
  unfold unary
  split
  · next x hx =>
    cases e <;> cases hx
    · simpa [Number.neg, ofNumber, integersIn_int, Number.fits] using he
    · exact integersIn_of_inner_nil rfl (by simp [Number.neg, ofNumber])
  · exact integersIn_unary.2 he

mutual

theorem fits_expr {e : Expr} (h : Fits e) : Fits (expr e) := by
  cases e with
  | binary op l r t =>
    obtain ⟨hl, hr⟩ := integersIn_binary.1 h
    exact fits_binary (fits_expr hl) (fits_expr hr)
  | unary op o t => exact fits_unary (fits_expr (integersIn_unary.1 h))
  | call f args t =>
    obtain ⟨hf, ha⟩ := integersIn_call.1 h
    exact integersIn_call.2 ⟨fits_expr hf, fits_exprs ha⟩
  | construct c args => exact integersIn_construct.2 (fits_exprs (integersIn_construct.1 h))
  | member o op field t => exact integersIn_member.2 (fits_expr (integersIn_member.1 h))
  | array es t => exact integersIn_array.2 (fits_exprs (integersIn_array.1 h))
  | tuple es t => exact integersIn_tuple.2 (fits_exprs (integersIn_tuple.1 h))
  | dict es t => exact integersIn_dict.2 (fits_entries (integersIn_dict.1 h))
  | _ => exact h

theorem fits_exprs {es : List Expr} (h : ∀ e ∈ es, Fits e) : ∀ e ∈ exprs es, Fits e := by
  cases es with
  | nil => exact h
  | cons e es =>
    obtain ⟨he, hes⟩ := List.forall_mem_cons.1 h
    exact List.forall_mem_cons.2 ⟨fits_expr he, fits_exprs hes⟩

theorem fits_entries {es : List (Expr × Expr)} (h : ∀ e ∈ es, Fits e.1 ∧ Fits e.2) :
    ∀ e ∈ entries es, Fits e.1 ∧ Fits e.2 := by
  cases es with
  | nil => exact h
  | cons e es =>
    obtain ⟨k, v⟩ := e
    obtain ⟨⟨hk, hv⟩, hes⟩ := List.forall_mem_cons.1 h
    exact List.forall_mem_cons.2 ⟨⟨fits_expr hk, fits_expr hv⟩, fits_entries hes⟩

end

/-- Simplifying once more makes nothing wider. -/
theorem fits_iterate {p : Program} (h : ∀ s ∈ p.statements, Worded Fits (.stmt s)) (k : Nat) :
    ∀ s ∈ (program^[k] p).statements, Worded Fits (.stmt s) := by
  induction k generalizing p with
  | zero => exact h
  | succ k ih => exact ih (rebuilt_block fun s hs => rebuilt_of_built (fun e he => fits_expr he) (h s hs))

end Snack.Simplify
