import Snack.Proofs.Script.Names
import Snack.Proofs.Simplify.Writable
import Snack.Proofs.Typing.Slots

/-! The text of a slot is a target: no optional chain, before simplification and after it. -/

namespace Snack.Script

open Snack.Core Snack.Typing

/-! ### Texts of slots -/

mutual

/-- Whether a `?.` stands in the chain of members, calls and lengths that the text of an expression is. -/
def isOptionalChain : Expr → Bool
  | .call callee args _ => if isLen callee then firstIsOptionalChain args else isOptionalChain callee
  | .member object op field _ =>
    !(field == "items" && isDict object.typ) && (op == .ifPresent || isOptionalChain object)
  | _ => false

/-- Whether the text of the first of some expressions is such a chain. -/
def firstIsOptionalChain : List Expr → Bool
  | [] => false
  | e :: _ => isOptionalChain e

end

/-- Whether the text of an expression can stand before an assignment: a name, or a member that is neither
behind a `?.` nor written as a call. -/
def isTarget : Expr → Bool
  | .ref e => e.kind.isNamed
  | .member object op field t =>
    !(field == "items" && isDict object.typ) && !isOptionalChain (.member object op field t)
  | _ => false

section Chains

variable {M : Nat → Members} {f : Expr → Expr}

theorem result_of_isLen {x : Entity} (h : Proper x) (hlen : isLen (.ref x) = true) {ps : List Ty} {r : Ty}
    (ht : x.typ = .function ps r) : r = .int := by
  unfold isLen at hlen
  split at hlen
  · next heq =>
    cases heq
    cases h with
    | standard h =>
      simp only [standardLibrary, List.mem_cons, List.not_mem_nil, or_false] at h
      rcases h with h | h | h | h | h | h | h | h | h | h | h | h | h | h <;> cases h <;>
        first | (cases ht; rfl) | exact absurd hlen (by decide)
  · cases hlen

/-- What gives an object or a function is not the library's length. -/
theorem not_isLen (hf : KeepsSlots f) {e : Expr} (h : Typed Proper Ty.Written M e) {ps : List Ty} {r : Ty}
    (ht : e.typ = .function ps r) (hr : isReached r = true) : isLen (f e) = false := by
  induction h generalizing ps r with
  | @ref x hx =>
    rw [hf.ref]
    cases hlen : isLen (.ref x) with
    | false => rfl
    | true =>
      rw [result_of_isLen hx hlen ht] at hr
      cases hr
  | @binary op a b t _ _ hrule _ ihb =>
    obtain rfl : t = .function ps r := ht
    obtain ⟨rfl, hassign⟩ := coalesce_of_binaryRule hrule (fun p => by rintro ⟨⟩)
    rcases hf.coalesce a b (.function ps r) with ⟨a', b', heq⟩ | heq
    · rw [heq]
      rfl
    · obtain ⟨qs, v, hb, hv⟩ := function_of_assignable hassign hr
      rw [heq]
      exact ihb hb hv
  | @unary op e _ hrule =>
    obtain ⟨p, -, hp⟩ := prim_of_unaryRule hrule
    exact absurd (hp.symm.trans ht) (by rintro ⟨⟩)
  | @call g args qs v =>
    obtain ⟨args', heq⟩ := hf.call g args v
    rw [heq]
    rfl
  | @construct c args =>
    obtain ⟨args', heq⟩ := hf.construct c args
    rw [heq]
    rfl
  | items | member | optionalMember =>
    rw [hf.member]
    rfl
  | _ => cases ht

/-- An object or a function is reached without a `?.`, as what is behind one is optional. -/
theorem not_isOptionalChain (hf : KeepsSlots f) {e : Expr} (h : Typed Proper Ty.Written M e)
    (ht : isReached e.typ = true) : isOptionalChain (f e) = false := by
  induction h with
  | ref =>
    rw [hf.ref]
    rfl
  | @binary op a b t _ _ hrule _ ihb =>
    obtain ⟨rfl, hassign⟩ := coalesce_of_binaryRule hrule (ne_prim_of_isReached ht)
    rcases hf.coalesce a b t with ⟨a', b', heq⟩ | heq
    · rw [heq]
      rfl
    · rw [heq]
      exact ihb (isReached_of_assignable hassign ht)
  | unary _ hrule =>
    obtain ⟨p, -, hp⟩ := prim_of_unaryRule hrule
    exact absurd hp (ne_prim_of_isReached ht p)
  | @call g args ps r hg hgt _ _ ihg =>
    obtain ⟨args', heq⟩ := hf.call g args r
    rw [heq, isOptionalChain, not_isLen hf hg hgt ht]
    exact ihg (by rw [hgt]; rfl)
  | @construct c args =>
    obtain ⟨args', heq⟩ := hf.construct c args
    rw [heq]
    rfl
  | @member o op s name t ho hop hot _ ih =>
    have hobject := ih (by rw [hot]; rfl)
    rw [hf.member, isOptionalChain, hobject, beq_false_of_ne hop]
    simp
  | optionalMember => simp [Expr.typ, not_isReached_optionalOf] at ht
  | _ => cases ht

/-- The text of a slot can stand before an assignment, simplified or not. -/
theorem isTarget_of_slot (hf : KeepsSlots f) {e : Expr} (h : Typed Proper Ty.Written M e) (he : Slot M e) :
    isTarget (f e) = true := by
  cases he with
  | var =>
    rw [hf.ref]
    rfl
  | parameter =>
    rw [hf.ref]
    rfl
  | @field o s name g t ho hfield =>
    have htyp := hf.typ_object h ho rfl
    have hchain : isOptionalChain (f o) = false := by
      cases h with
      | items h => exact not_isOptionalChain hf h (by rw [ho]; rfl)
      | member h => exact not_isOptionalChain hf h (by rw [ho]; rfl)
    rw [hf.member]
    simp [isTarget, isOptionalChain, hchain, htyp, isDict]

end Chains

end Snack.Script
