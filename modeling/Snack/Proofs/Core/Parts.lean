import Snack.Proofs.Core.Sites
import Snack.Typing.Expr

/-! The parts of an expression: itself and all that it is made of. The calls in it, and its integers. -/

namespace Snack.Core

mutual

/-- What an expression is made of, at any depth. -/
def Expr.inner : Expr → List Expr
  | .binary _ left right _ => left :: left.inner ++ right :: right.inner
  | .unary _ operand _ => operand :: operand.inner
  | .call callee args _ => callee :: callee.inner ++ partsOfAll args
  | .construct _ args => partsOfAll args
  | .member object _ _ _ => object :: object.inner
  | .array es _ | .tuple es _ => partsOfAll es
  | .dict es _ => partsOfEntries es
  | .int _ | .float _ | .str _ | .bool _ | .ref _ | .emptyArray _ | .emptyOptional _ | .other _ _ => []

/-- The parts of some expressions. -/
def partsOfAll : List Expr → List Expr
  | [] => []
  | e :: es => e :: e.inner ++ partsOfAll es

def partsOfEntries : List (Expr × Expr) → List Expr
  | [] => []
  | (k, v) :: es => k :: k.inner ++ v :: v.inner ++ partsOfEntries es

end

def Expr.parts (e : Expr) : List Expr := e :: e.inner

theorem mem_partsOfAll {d : Expr} {es : List Expr} : d ∈ partsOfAll es ↔ ∃ e ∈ es, d ∈ e.parts := by
  induction es with
  | nil => simp [partsOfAll]
  | cons e es ih => simp [partsOfAll, ih, Expr.parts, or_assoc]

theorem mem_partsOfEntries {d : Expr} {es : List (Expr × Expr)} :
    d ∈ partsOfEntries es ↔ ∃ e ∈ es, d ∈ e.1.parts ∨ d ∈ e.2.parts := by
  induction es with
  | nil => simp [partsOfEntries]
  | cons e es ih =>
    obtain ⟨k, v⟩ := e
    simp [partsOfEntries, ih, Expr.parts, or_assoc]

/-! ### Parts of parts -/

theorem parts_subset_of_inner {d e : Expr} (hinner : ∀ d ∈ e.inner, d.parts ⊆ e.inner)
    (h : d ∈ e.parts) : d.parts ⊆ e.parts := by
  rcases List.mem_cons.1 h with rfl | h
  · exact List.Subset.refl _
  · exact List.Subset.trans (hinner d h) (List.subset_cons_self _ _)

mutual

theorem Expr.parts_subset_inner (e : Expr) : ∀ d ∈ e.inner, d.parts ⊆ e.inner := by
  cases e with
  | binary op l r t =>
    intro d hd
    rcases List.mem_append.1 hd with hd | hd
    · exact List.Subset.trans (parts_subset_of_inner l.parts_subset_inner hd) (List.subset_append_left _ _)
    · exact List.Subset.trans (parts_subset_of_inner r.parts_subset_inner hd) (List.subset_append_right _ _)
  | unary op o t => exact fun d hd => parts_subset_of_inner o.parts_subset_inner hd
  | call f args t =>
    intro d hd
    rcases List.mem_append.1 hd with hd | hd
    · exact List.Subset.trans (parts_subset_of_inner f.parts_subset_inner hd) (List.subset_append_left _ _)
    · exact List.Subset.trans (parts_subset_partsOfAll args d hd) (List.subset_append_right _ _)
  | construct c args => exact parts_subset_partsOfAll args
  | member o op field t => exact fun d hd => parts_subset_of_inner o.parts_subset_inner hd
  | array es t => exact parts_subset_partsOfAll es
  | tuple es t => exact parts_subset_partsOfAll es
  | dict es t => exact parts_subset_partsOfEntries es
  | _ => simp [Expr.inner]

theorem parts_subset_partsOfAll (es : List Expr) : ∀ d ∈ partsOfAll es, d.parts ⊆ partsOfAll es := by
  cases es with
  | nil => simp [partsOfAll]
  | cons e es =>
    intro d hd
    rcases List.mem_append.1 hd with hd | hd
    · exact List.Subset.trans (parts_subset_of_inner e.parts_subset_inner hd) (List.subset_append_left _ _)
    · exact List.Subset.trans (parts_subset_partsOfAll es d hd) (List.subset_append_right _ _)

theorem parts_subset_partsOfEntries (es : List (Expr × Expr)) :
    ∀ d ∈ partsOfEntries es, d.parts ⊆ partsOfEntries es := by
  cases es with
  | nil => simp [partsOfEntries]
  | cons e es =>
    obtain ⟨k, v⟩ := e
    intro d hd
    rcases List.mem_append.1 hd with hd | hd
    · refine List.Subset.trans ?_ (List.subset_append_left _ _)
      rcases List.mem_append.1 hd with hd | hd
      · exact List.Subset.trans (parts_subset_of_inner k.parts_subset_inner hd) (List.subset_append_left _ _)
      · exact List.Subset.trans (parts_subset_of_inner v.parts_subset_inner hd) (List.subset_append_right _ _)
    · exact List.Subset.trans (parts_subset_partsOfEntries es d hd) (List.subset_append_right _ _)

end

/-- A part of a part is a part. -/
theorem Expr.parts_subset {d e : Expr} (h : d ∈ e.parts) : d.parts ⊆ e.parts :=
  parts_subset_of_inner e.parts_subset_inner h

/-! ### Operands -/

/-- The operators of arithmetic, order and logic. -/
def calculations : List BinaryOp :=
  [.add, .sub, .mul, .div, .rem, .pow, .lt, .le, .gt, .ge, .and, .or]

/-- The operands of an expression that calculates. -/
def Expr.ownOperands : Expr → List Expr
  | .binary op left right _ => if op ∈ calculations then [left, right] else []
  | .unary _ operand _ => [operand]
  | _ => []

/-- The operands of arithmetic, order and logic in an expression, at any depth. -/
def Expr.operands (e : Expr) : List Expr := e.parts.flatMap Expr.ownOperands

def operandsOfAll (es : List Expr) : List Expr := (partsOfAll es).flatMap Expr.ownOperands

def operandsOfEntries (es : List (Expr × Expr)) : List Expr := (partsOfEntries es).flatMap Expr.ownOperands

section Operands

variable {e l r : Expr} {es : List Expr} {t : Ty}

theorem operands_binary {op : BinaryOp} :
    (Expr.binary op l r t).operands =
      (Expr.binary op l r t).ownOperands ++ (l.operands ++ r.operands) := by
  simp [Expr.operands, Expr.parts, Expr.inner]

theorem operands_unary {op : UnaryOp} : (Expr.unary op e t).operands = e :: e.operands := by
  simp [Expr.operands, Expr.parts, Expr.inner, Expr.ownOperands]

theorem operands_call : (Expr.call e es t).operands = e.operands ++ operandsOfAll es := by
  simp [Expr.operands, operandsOfAll, Expr.parts, Expr.inner, Expr.ownOperands]

theorem operandsOfAll_cons : operandsOfAll (e :: es) = e.operands ++ operandsOfAll es := by
  simp [Expr.operands, operandsOfAll, Expr.parts, partsOfAll]

theorem operandsOfEntries_cons {es : List (Expr × Expr)} :
    operandsOfEntries ((l, r) :: es) = l.operands ++ r.operands ++ operandsOfEntries es := by
  simp [Expr.operands, operandsOfEntries, Expr.parts, partsOfEntries]

theorem ownOperands_subset_inner : e.ownOperands ⊆ e.inner := by
  cases e with
  | binary op l r t =>
    simp only [Expr.ownOperands]
    split <;> simp [Expr.inner]
  | unary op o t => simp [Expr.ownOperands, Expr.inner]
  | _ => exact List.nil_subset _

end Operands

/-! ### Quotients and powers -/

/-- Whether an expression is neither a quotient nor a power of anything but floats. -/
def Expr.inFloats : Expr → Bool
  | .binary op left right _ =>
    (op ≠ .div && op ≠ .pow) || (left.typ.equiv .float && right.typ.equiv .float)
  | _ => true

/-- All quotients and powers in an expression are of floats. -/
def Expr.DividesFloats (e : Expr) : Prop := ∀ d ∈ e.parts, d.inFloats = true

instance (e : Expr) : Decidable e.DividesFloats :=
  inferInstanceAs (Decidable (∀ d ∈ e.parts, d.inFloats = true))

theorem Expr.DividesFloats.mono {d e : Expr} (h : e.DividesFloats) (hsub : d.parts ⊆ e.parts) :
    d.DividesFloats :=
  fun c hc => h c (hsub hc)

/-! ### Integers -/

/-- All integer literals in an expression have the property `Q`. -/
def Expr.IntegersIn (Q : Int → Prop) (e : Expr) : Prop := ∀ n, .int n ∈ e.parts → Q n

/-- The integer literal `n` stands somewhere in the program. -/
def Program.HasInteger (p : Program) (n : Int) : Prop := ∃ s ∈ p.sites, .int n ∈ s.expr.parts

section Expressions

variable {Q : Int → Prop} {e l r : Expr} {es : List Expr} {t : Ty}

theorem forall_int_partsOfAll : (∀ n, .int n ∈ partsOfAll es → Q n) ↔ ∀ e ∈ es, e.IntegersIn Q := by
  simp only [mem_partsOfAll, Expr.IntegersIn]
  exact ⟨fun h e he n hn => h n ⟨e, he, hn⟩, fun h n ⟨e, he, hn⟩ => h e he n hn⟩

theorem forall_int_partsOfEntries {es : List (Expr × Expr)} :
    (∀ n, .int n ∈ partsOfEntries es → Q n) ↔ ∀ e ∈ es, e.1.IntegersIn Q ∧ e.2.IntegersIn Q := by
  simp only [mem_partsOfEntries, Expr.IntegersIn]
  refine ⟨fun h e he => ⟨fun n hn => h n ⟨e, he, .inl hn⟩, fun n hn => h n ⟨e, he, .inr hn⟩⟩, fun h n => ?_⟩
  rintro ⟨e, he, hn | hn⟩
  · exact (h e he).1 n hn
  · exact (h e he).2 n hn

theorem integersIn_int {n : Int} : (Expr.int n).IntegersIn Q ↔ Q n := by
  simp [Expr.IntegersIn, Expr.parts, Expr.inner]

theorem integersIn_of_inner_nil (h : e.inner = []) (hint : ∀ n, e ≠ .int n) : e.IntegersIn Q := by
  intro n hn
  rw [Expr.parts, h] at hn
  exact absurd (List.mem_singleton.1 hn).symm (hint n)

theorem integersIn_binary {op : BinaryOp} :
    (Expr.binary op l r t).IntegersIn Q ↔ l.IntegersIn Q ∧ r.IntegersIn Q := by
  simp [Expr.IntegersIn, Expr.parts, Expr.inner, or_imp, forall_and, and_assoc]

theorem integersIn_unary {op : UnaryOp} : (Expr.unary op e t).IntegersIn Q ↔ e.IntegersIn Q := by
  simp [Expr.IntegersIn, Expr.parts, Expr.inner]

theorem integersIn_member {op : AccessOp} {field : String} :
    (Expr.member e op field t).IntegersIn Q ↔ e.IntegersIn Q := by
  simp [Expr.IntegersIn, Expr.parts, Expr.inner]

theorem integersIn_call :
    (Expr.call e es t).IntegersIn Q ↔ e.IntegersIn Q ∧ ∀ a ∈ es, a.IntegersIn Q := by
  rw [← forall_int_partsOfAll]
  simp [Expr.IntegersIn, Expr.parts, Expr.inner, or_imp, forall_and, and_assoc]

theorem integersIn_construct {c : Entity} :
    (Expr.construct c es).IntegersIn Q ↔ ∀ a ∈ es, a.IntegersIn Q := by
  rw [← forall_int_partsOfAll]
  simp [Expr.IntegersIn, Expr.parts, Expr.inner]

theorem integersIn_array : (Expr.array es t).IntegersIn Q ↔ ∀ a ∈ es, a.IntegersIn Q := by
  rw [← forall_int_partsOfAll]
  simp [Expr.IntegersIn, Expr.parts, Expr.inner]

theorem integersIn_tuple : (Expr.tuple es t).IntegersIn Q ↔ ∀ a ∈ es, a.IntegersIn Q := by
  rw [← forall_int_partsOfAll]
  simp [Expr.IntegersIn, Expr.parts, Expr.inner]

theorem integersIn_dict {es : List (Expr × Expr)} :
    (Expr.dict es t).IntegersIn Q ↔ ∀ e ∈ es, e.1.IntegersIn Q ∧ e.2.IntegersIn Q := by
  rw [← forall_int_partsOfEntries]
  simp [Expr.IntegersIn, Expr.parts, Expr.inner]

end Expressions

/-! ### Calls -/

open Snack.Typing (Callee)

mutual

/-- What an expression calls, from left to right. -/
def Expr.calls : Expr → List Callee
  | .binary _ left right _ => left.calls ++ right.calls
  | .unary _ operand _ => operand.calls
  | .call callee args t => .function callee t :: (callee.calls ++ callsOfAll args)
  | .construct c args => .constructor c :: callsOfAll args
  | .member object _ _ _ => object.calls
  | .array es _ | .tuple es _ => callsOfAll es
  | .dict es _ => callsOfEntries es
  | .int _ | .float _ | .str _ | .bool _ | .ref _ | .emptyArray _ | .emptyOptional _ | .other _ _ => []

def callsOfAll : List Expr → List Callee
  | [] => []
  | e :: es => e.calls ++ callsOfAll es

def callsOfEntries : List (Expr × Expr) → List Callee
  | [] => []
  | (k, v) :: es => k.calls ++ v.calls ++ callsOfEntries es

end

end Snack.Core
