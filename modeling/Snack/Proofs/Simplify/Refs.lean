import Snack.Proofs.Core.Direct
import Snack.Proofs.Simplify.Reducts

/-! Simplification puts no entity as a value where none stood. -/

namespace Snack.Simplify

open Snack.Core

variable {R : Entity → Prop}

theorem refsIn_ofNumber (x : Number) : (ofNumber x).RefsIn R := by
  cases x <;> exact refsIn_of_direct (by rintro _ ⟨⟩) (List.forall_mem_nil _)

theorem Reduct.refsIn {l r e : Expr} (h : Reduct l r e) (hl : l.RefsIn R) (hr : r.RefsIn R) : e.RefsIn R := by
  cases h with
  | left => exact hl
  | right => exact hr
  | negated => exact refsIn_of_direct (by rintro _ ⟨⟩) (List.forall_mem_singleton.2 hr)
  | literal v =>
    cases v with
    | number x => exact refsIn_ofNumber x
    | bool b => exact refsIn_of_direct (by rintro _ ⟨⟩) (List.forall_mem_nil _)

theorem refsIn_binary (op : BinaryOp) {l r : Expr} (t : Ty) (hl : l.RefsIn R) (hr : r.RefsIn R) :
    (binary op l r t).RefsIn R := by
  rcases binary_cases op l r t with h | h
  · rw [h]
    exact refsIn_of_direct (by rintro _ ⟨⟩) (List.forall_mem_cons.2 ⟨hl, List.forall_mem_singleton.2 hr⟩)
  · exact h.refsIn hl hr

theorem refsIn_unary (op : UnaryOp) {e : Expr} (t : Ty) (he : e.RefsIn R) : (unary op e t).RefsIn R := by
  rcases unary_cases op e t with h | ⟨x, h⟩
  · rw [h]
    exact refsIn_of_direct (by rintro _ ⟨⟩) (List.forall_mem_singleton.2 he)
  · rw [h]
    exact refsIn_ofNumber x

mutual

theorem refsIn_expr (e : Expr) (h : e.RefsIn R) : (expr e).RefsIn R := by
  cases e with
  | binary op l r t =>
    obtain ⟨hl, hr⟩ := List.forall_mem_cons.1 h.direct
    exact refsIn_binary op t (refsIn_expr l hl) (refsIn_expr r (List.forall_mem_singleton.1 hr))
  | unary op o t =>
    have ho := h.direct
    exact refsIn_unary op t (refsIn_expr o (List.forall_mem_singleton.1 ho))
  | call f args t =>
    obtain ⟨hf, ha⟩ := List.forall_mem_cons.1 h.direct
    exact refsIn_of_direct (by rintro _ ⟨⟩) (List.forall_mem_cons.2 ⟨refsIn_expr f hf, refsIn_exprs args ha⟩)
  | construct c args =>
    have ha := h.direct
    exact refsIn_of_direct (by rintro _ ⟨⟩) (refsIn_exprs args ha)
  | member o op field t =>
    have ho := List.forall_mem_singleton.1 h.direct
    exact refsIn_of_direct (by rintro _ ⟨⟩) (List.forall_mem_singleton.2 (refsIn_expr o ho))
  | array es t =>
    have he := h.direct
    exact refsIn_of_direct (by rintro _ ⟨⟩) (refsIn_exprs es he)
  | tuple es t =>
    have he := h.direct
    exact refsIn_of_direct (by rintro _ ⟨⟩) (refsIn_exprs es he)
  | dict es t =>
    obtain ⟨hk, hv⟩ := List.forall_mem_append.1 h.direct
    have hes := refsIn_entries es (List.forall_mem_map.1 hk) (List.forall_mem_map.1 hv)
    exact refsIn_of_direct (by rintro _ ⟨⟩)
      (List.forall_mem_append.2 ⟨List.forall_mem_map.2 hes.1, List.forall_mem_map.2 hes.2⟩)
  | _ => exact h

theorem refsIn_exprs (es : List Expr) (h : ∀ e ∈ es, e.RefsIn R) : ∀ e ∈ exprs es, e.RefsIn R := by
  cases es with
  | nil => exact List.forall_mem_nil _
  | cons e es =>
    obtain ⟨he, hes⟩ := List.forall_mem_cons.1 h
    exact List.forall_mem_cons.2 ⟨refsIn_expr e he, refsIn_exprs es hes⟩

theorem refsIn_entries (es : List (Expr × Expr)) (hk : ∀ e ∈ es, e.1.RefsIn R) (hv : ∀ e ∈ es, e.2.RefsIn R) :
    (∀ e ∈ entries es, e.1.RefsIn R) ∧ ∀ e ∈ entries es, e.2.RefsIn R := by
  cases es with
  | nil => exact ⟨List.forall_mem_nil _, List.forall_mem_nil _⟩
  | cons e es =>
    obtain ⟨k, v⟩ := e
    obtain ⟨hk, hks⟩ := List.forall_mem_cons.1 hk
    obtain ⟨hv, hvs⟩ := List.forall_mem_cons.1 hv
    obtain ⟨hkeys, hvalues⟩ := refsIn_entries es hks hvs
    exact ⟨List.forall_mem_cons.2 ⟨refsIn_expr k hk, hkeys⟩, List.forall_mem_cons.2 ⟨refsIn_expr v hv, hvalues⟩⟩

end

end Snack.Simplify
