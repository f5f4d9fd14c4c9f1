import Snack.Proofs.Core.Parts
import Snack.Proofs.Typing.Spelled

/-! Integers that a source text writes. They have no sign and at most 1024 bits. -/

namespace Snack.Typing

open Snack.Core

/-- A numeral without a sign gives an integer from zero on with at most 1024 bits, or a float. -/
theorem integersIn_number {text : String} {p : Pos} {e : Expr} (ht : Numeral.Readable text)
    (h : number text p = .ok e) : e.IntegersIn fun n => 0 ≤ n ∧ Number.fits n = true := by
  unfold Numeral.Readable at ht
  unfold number at h
  split at h
  · split at h <;> cases h
    exact integersIn_of_inner_nil rfl (by simp)
  · next hf =>
    rw [if_neg hf] at ht
    obtain ⟨n, hn⟩ := ht
    split at h
    · cases h
    · rw [hn] at h
      dsimp only at h
      split at h
      · next hfits =>
        cases h
        exact integersIn_int.2 ⟨Int.natCast_nonneg n, hfits⟩
      · cases h

theorem number_eq_int {text : String} {p : Pos} {n : Int} (hfloat : Numeral.isFloat text = false)
    (hlength : ¬text.length > maxDigits) (hint : Numeral.int? text = some n) (hfits : Number.fits n = true) :
    number text p = .ok (.int n) := by
  simp [number, hfloat, hlength, hint, hfits]

theorem integersIn_infer {st : State} (hst : Knows st Nameable) {t : Tree.Expr} (ht : t.Formed) {e : Expr}
    (h : infer st t = .ok e) : e.IntegersIn fun n => 0 ≤ n ∧ Number.fits n = true := by
  induction ht generalizing e with
  | num hread => exact integersIn_number hread h
  | str | bool =>
    cases h
    exact integersIn_of_inner_nil rfl (by simp)
  | var =>
    obtain ⟨x, -, rfl⟩ := nameValue_ok hst h
    exact integersIn_of_inner_nil rfl (by simp)
  | paren _ ih => exact ih h
  | binary _ _ _ ihl ihr =>
    simp only [infer, except_bind_ok, except_pure_ok] at h
    obtain ⟨l, hl, r, hr, t, -, rfl⟩ := h
    exact integersIn_binary.2 ⟨ihl hl, ihr hr⟩
  | unary _ _ ih =>
    simp only [infer, except_bind_ok, except_pure_ok] at h
    obtain ⟨o, ho, _, -, rfl⟩ := h
    exact integersIn_unary.2 (ih ho)
  | call _ _ ihf iha =>
    obtain ⟨f, es, hf, has, hres⟩ := infer_call_ok h
    have ha := forall_inferAll has fun t ht {e} he => iha t ht he
    rcases hres with ⟨c, -, -, -, rfl⟩ | ⟨ps, r, -, -, rfl⟩
    · exact integersIn_construct.2 ha
    · refine integersIn_call.2 ⟨?_, ha⟩
      rcases hf with ⟨name, x, -, rfl⟩ | hf
      · exact integersIn_of_inner_nil rfl (by simp)
      · exact ihf hf
  | member _ _ _ ih =>
    simp only [infer, except_bind_ok, Check.part_ok, except_pure_ok] at h
    obtain ⟨o, ho, _, ⟨⟩, _, ⟨⟩, t, -, rfl⟩ := h
    exact integersIn_member.2 (ih ho)
  | array _ ih =>
    simp only [infer, except_bind_ok, except_pure_ok] at h
    obtain ⟨es, hes, t, -, rfl⟩ := h
    exact integersIn_array.2 (forall_inferAll hes fun t ht {e} he => ih t ht he)
  | tuple _ ih =>
    simp only [infer, except_bind_ok, except_pure_ok] at h
    obtain ⟨es, hes, rfl⟩ := h
    exact integersIn_tuple.2 (forall_inferAll hes fun t ht {e} he => ih t ht he)
  | dict _ _ ihk ihv =>
    simp only [infer, except_bind_ok, except_pure_ok] at h
    obtain ⟨es, hes, t, -, rfl⟩ := h
    exact integersIn_dict.2
      (forall_inferEntries hes (fun t ht {e} he => ihk t ht he) fun t ht {e} he => ihv t ht he)
  | emptyArray | emptyOptional =>
    simp only [infer, except_bind_ok, except_pure_ok] at h
    obtain ⟨t, -, rfl⟩ := h
    exact integersIn_of_inner_nil rfl (by simp)

end Snack.Typing
