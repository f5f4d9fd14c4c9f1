import Snack.Proofs.Typing.Infer

/-! Slots, which can be assigned to: variables, parameters, and the fields of objects. A map of expressions that
does not touch the type of an object leaves a slot what it is. -/

namespace Snack.Core

open Snack.Typing

/-- Where a value can be stored: a variable that is no iterator, a parameter, or a field behind a point. -/
inductive Slot (M : Nat → Members) : Expr → Prop where
  | var {id name t} : Slot M (.ref ⟨id, .var true, name, t⟩)
  | parameter {id name t} : Slot M (.ref ⟨id, .parameter, name, t⟩)
  | field {o s name f t} (ho : o.typ = .struct s) (hf : (M s.id).field? name = some f) :
      Slot M (.member o .direct name t)

/-- Members that are no slots: one behind `?.`, the pairs of a dictionary, and a method. -/
inductive NoSlot (M : Nat → Members) : Expr → Prop where
  | optional {o s name u t} (ho : o.typ = .optional (.struct s)) (hm : (M s.id).typ? name = some u) :
      NoSlot M (.member o .ifPresent name t)
  | items {o op k v t} (ho : o.typ = .dict k v) : NoSlot M (.member o op "items" t)
  | method {o s name g t} (ho : o.typ = .struct s) (hf : (M s.id).field? name = none)
      (hm : (M s.id).method? name = some g) : NoSlot M (.member o .direct name t)

theorem Slot.not_noSlot {M : Nat → Members} {e : Expr} (h : Slot M e) : ¬NoSlot M e := by
  intro hno
  cases h with
  | var | parameter => cases hno
  | field ho hf =>
    cases hno with
    | items ho' => simp [ho] at ho'
    | method ho' hf' =>
      obtain rfl : _ = _ := Ty.struct.inj (ho.symm.trans ho')
      simp [hf] at hf'

end Snack.Core

namespace Snack.Typing

open Snack.Core

/-! ### Types of objects -/

/-- Types of objects, of dictionaries, and optional types. -/
def isFixed : Ty → Bool
  | .struct _ | .dict .. | .optional _ => true
  | _ => false

theorem eq_of_assignable_fixed {s t : Ty} (h : s.assignable t = true) (ht : isFixed t = true) : s = t := by
  rcases Ty.flows_cases h with rfl | rfl | ⟨_, _, _, _, _, rfl, _⟩
  · cases ht
  · rfl
  · cases ht

/-- Types of objects and of functions. -/
def isReached : Ty → Bool
  | .struct _ | .function .. => true
  | _ => false

theorem isReached_of_assignable {s t : Ty} (h : s.assignable t = true) (ht : isReached t = true) :
    isReached s = true := by
  rcases Ty.flows_cases h with rfl | rfl | ⟨_, _, _, _, rfl, _, _⟩
  · cases ht
  · exact ht
  · rfl

/-- What may be stored as a function that gives an object or a function is one. -/
theorem function_of_assignable {s : Ty} {ps : List Ty} {r : Ty} (h : s.assignable (.function ps r) = true)
    (hr : isReached r = true) : ∃ qs v, s = .function qs v ∧ isReached v = true := by
  rcases Ty.flows_cases h with h | rfl | ⟨qs, v, _, _, rfl, hfun, hv, _⟩
  · cases h
  · exact ⟨ps, r, rfl, hr⟩
  · cases hfun
    exact ⟨qs, v, rfl, isReached_of_assignable hv hr⟩

/-- Only `??` gives anything but a basic value. -/
theorem coalesce_of_binaryRule {op : BinaryOp} {t u v : Ty} (h : BinaryRule op t u v)
    (hv : ∀ p, v ≠ .prim p) : op = .coalesce ∧ u.assignable v = true := by
  cases h with
  | coalesce h => exact ⟨rfl, h⟩
  | logic | order | equality => exact absurd rfl (hv _)
  | add ht =>
    obtain ⟨p, -, rfl⟩ := prim_of_isNumericOrString ht
    exact absurd rfl (hv p)
  | arith _ ht =>
    obtain ⟨p, -, rfl⟩ := prim_of_isNumeric ht
    exact absurd rfl (hv p)

theorem ne_prim_of_isFixed {t : Ty} (h : isFixed t = true) (p : Prim) : t ≠ .prim p := by
  rintro rfl
  cases h

theorem ne_prim_of_isReached {t : Ty} (h : isReached t = true) (p : Prim) : t ≠ .prim p := by
  rintro rfl
  cases h

theorem not_isReached_optionalOf (t : Ty) : isReached (optionalOf t) = false := by
  cases t <;> rfl

/-! ### Maps that keep slots -/

/-- A map of expressions that stays with what an expression begins with. It may only take the right side of
`??` for the whole. -/
structure KeepsSlots (f : Expr → Expr) : Prop where
  ref : ∀ e, f (.ref e) = .ref e
  member : ∀ o op name t, f (.member o op name t) = .member (f o) op name t
  call : ∀ g args t, ∃ args', f (.call g args t) = .call (f g) args' t
  construct : ∀ c args, ∃ args', f (.construct c args) = .construct c args'
  coalesce : ∀ l r t, (∃ l' r', f (.binary .coalesce l r t) = .binary .coalesce l' r' t) ∨
    f (.binary .coalesce l r t) = f r
  dict : ∀ es t, (f (.dict es t)).typ = t
  emptyOptional : ∀ t, f (.emptyOptional t) = .emptyOptional t

theorem keepsSlots_id : KeepsSlots id :=
  ⟨fun _ => rfl, fun _ _ _ _ => rfl, fun _ args _ => ⟨args, rfl⟩, fun _ args => ⟨args, rfl⟩,
    fun l r _ => .inl ⟨l, r, rfl⟩, fun _ _ => rfl, fun _ => rfl⟩

section Maps

variable {M : Nat → Members} {f : Expr → Expr}

/-- The type of an object, a dictionary or an optional value is kept. -/
theorem KeepsSlots.typ_eq (hf : KeepsSlots f) {e : Expr} (h : Typed Proper Ty.Written M e)
    (ht : isFixed e.typ = true) : (f e).typ = e.typ := by
  induction h with
  | ref => rw [hf.ref]
  | @binary op l r t _ _ hrule _ ihr =>
    obtain ⟨rfl, hassign⟩ := coalesce_of_binaryRule hrule (ne_prim_of_isFixed ht)
    rcases hf.coalesce l r t with ⟨l', r', heq⟩ | heq
    · rw [heq]
      rfl
    · have hr : r.typ = t := eq_of_assignable_fixed hassign ht
      rw [heq, ihr (hr ▸ ht)]
      exact hr
  | unary _ hrule =>
    obtain ⟨p, -, hp⟩ := prim_of_unaryRule hrule
    exact absurd hp (ne_prim_of_isFixed ht p)
  | @call g args ps r =>
    obtain ⟨args', heq⟩ := hf.call g args r
    rw [heq]
    rfl
  | @construct c args =>
    obtain ⟨args', heq⟩ := hf.construct c args
    rw [heq]
    rfl
  | items | member | optionalMember =>
    rw [hf.member]
    rfl
  | dict => rw [hf.dict]; rfl
  | emptyOptional => rw [hf.emptyOptional]
  | _ => cases ht

/-- The object of a member is of such a type. -/
theorem KeepsSlots.typ_object (hf : KeepsSlots f) {o : Expr} {op : AccessOp} {name : String} {t u : Ty}
    (h : Typed Proper Ty.Written M (.member o op name t)) (ho : o.typ = u) (hu : isFixed u = true) :
    (f o).typ = u := by
  subst ho
  cases h with
  | items h => exact hf.typ_eq h hu
  | member h => exact hf.typ_eq h hu
  | optionalMember h => exact hf.typ_eq h hu

theorem KeepsSlots.slot (hf : KeepsSlots f) {e : Expr} (h : Typed Proper Ty.Written M e) (he : Slot M e) :
    Slot M (f e) := by
  cases he with
  | var =>
    rw [hf.ref]
    exact .var
  | parameter =>
    rw [hf.ref]
    exact .parameter
  | field ho hfield =>
    rw [hf.member]
    exact .field (hf.typ_object h ho rfl) hfield

theorem KeepsSlots.noSlot (hf : KeepsSlots f) {e : Expr} (h : Typed Proper Ty.Written M e)
    (he : NoSlot M e) : NoSlot M (f e) := by
  cases he with
  | optional ho hm =>
    rw [hf.member]
    exact .optional (hf.typ_object h ho rfl) hm
  | items ho =>
    rw [hf.member]
    exact .items (hf.typ_object h ho rfl)
  | method ho hfield hm =>
    rw [hf.member]
    exact .method (hf.typ_object h ho rfl) hfield hm

end Maps

end Snack.Typing
