import Snack.Proofs.Core.Parts

/-! The parts of an expression, by way of what it is directly made of. Among them are the entities that stand
as values. The class of a new object is not one, it is named but no value. -/

namespace Snack.Core

/-- What an expression is made of, without the parts of these. -/
def Expr.direct : Expr → List Expr
  | .binary _ left right _ => [left, right]
  | .unary _ operand _ => [operand]
  | .call callee args _ => callee :: args
  | .construct _ args => args
  | .member object _ _ _ => [object]
  | .array es _ | .tuple es _ => es
  | .dict es _ => es.map Prod.fst ++ es.map Prod.snd
  | .int _ | .float _ | .str _ | .bool _ | .ref _ | .emptyArray _ | .emptyOptional _ | .other _ _ => []

/-- An expression is a part of itself, and so are the parts of what it is made of. -/
theorem mem_parts {d e : Expr} : d ∈ e.parts ↔ d = e ∨ ∃ b ∈ e.direct, d ∈ b.parts := by
  rw [Expr.parts, List.mem_cons]
  refine or_congr_right ?_
  cases e with
  | binary op l r t => simp [Expr.inner, Expr.direct, Expr.parts, or_assoc]
  | unary op o t => simp [Expr.inner, Expr.direct, Expr.parts]
  | call f args t => simp [Expr.inner, Expr.direct, Expr.parts, mem_partsOfAll, or_assoc]
  | construct c args => exact mem_partsOfAll
  | member o op field t => simp [Expr.inner, Expr.direct, Expr.parts]
  | array es t => exact mem_partsOfAll
  | tuple es t => exact mem_partsOfAll
  | dict es t =>
    rw [Expr.inner, Expr.direct, mem_partsOfEntries]
    simp only [List.mem_append, List.mem_map, or_and_right, exists_or]
    constructor
    · rintro ⟨e, he, hd | hd⟩
      · exact .inl ⟨_, ⟨e, he, rfl⟩, hd⟩
      · exact .inr ⟨_, ⟨e, he, rfl⟩, hd⟩
    · rintro (⟨_, ⟨e, he, rfl⟩, hd⟩ | ⟨_, ⟨e, he, rfl⟩, hd⟩)
      · exact ⟨e, he, .inl hd⟩
      · exact ⟨e, he, .inr hd⟩
  | _ => simp [Expr.inner, Expr.direct]

section Parts

variable {P : Expr → Prop}

mutual

/-- What passes from an expression to what it is made of holds of all its parts. -/
theorem forall_parts (hP : ∀ e, P e → ∀ d ∈ e.direct, P d) (e : Expr) (h : P e) : ∀ d ∈ e.parts, P d := by
  have hdirect := hP e h
  refine List.forall_mem_cons.2 ⟨h, ?_⟩
  cases e with
  | binary op l r t =>
    obtain ⟨hl, hr⟩ := List.forall_mem_cons.1 hdirect
    exact List.forall_mem_append.2
      ⟨forall_parts hP l hl, forall_parts hP r (List.forall_mem_singleton.1 hr)⟩
  | unary op o t => exact forall_parts hP o (List.forall_mem_singleton.1 hdirect)
  | member o op field t => exact forall_parts hP o (List.forall_mem_singleton.1 hdirect)
  | call f args t =>
    obtain ⟨hf, ha⟩ := List.forall_mem_cons.1 hdirect
    exact List.forall_mem_append.2 ⟨forall_parts hP f hf, forall_partsOfAll hP args ha⟩
  | construct c args => exact forall_partsOfAll hP args hdirect
  | array es t => exact forall_partsOfAll hP es hdirect
  | tuple es t => exact forall_partsOfAll hP es hdirect
  | dict es t =>
    obtain ⟨hk, hv⟩ := List.forall_mem_append.1 hdirect
    exact forall_partsOfEntries hP es (List.forall_mem_map.1 hk) (List.forall_mem_map.1 hv)
  | _ => exact List.forall_mem_nil _

theorem forall_partsOfAll (hP : ∀ e, P e → ∀ d ∈ e.direct, P d) (es : List Expr) (h : ∀ e ∈ es, P e) :
    ∀ d ∈ partsOfAll es, P d := by
  cases es with
  | nil => exact List.forall_mem_nil _
  | cons e es =>
    obtain ⟨he, hes⟩ := List.forall_mem_cons.1 h
    exact List.forall_mem_append.2 ⟨forall_parts hP e he, forall_partsOfAll hP es hes⟩

theorem forall_partsOfEntries (hP : ∀ e, P e → ∀ d ∈ e.direct, P d) (es : List (Expr × Expr))
    (hk : ∀ e ∈ es, P e.1) (hv : ∀ e ∈ es, P e.2) : ∀ d ∈ partsOfEntries es, P d := by
  cases es with
  | nil => exact List.forall_mem_nil _
  | cons e es =>
    obtain ⟨k, v⟩ := e
    obtain ⟨hk, hks⟩ := List.forall_mem_cons.1 hk
    obtain ⟨hv, hvs⟩ := List.forall_mem_cons.1 hv
    refine List.forall_mem_append.2 ⟨?_, forall_partsOfEntries hP es hks hvs⟩
    exact List.forall_mem_append.2 ⟨forall_parts hP k hk, forall_parts hP v hv⟩

end

end Parts

/-! ### Entities as values -/

/-- All entities that stand as values have the property. -/
def Expr.RefsIn (R : Entity → Prop) (e : Expr) : Prop := ∀ x, .ref x ∈ e.parts → R x

section Refs

variable {R : Entity → Prop}

theorem refsIn_ref {x : Entity} : (Expr.ref x).RefsIn R ↔ R x := by
  simp [Expr.RefsIn, Expr.parts, Expr.inner]

theorem Expr.RefsIn.direct {e : Expr} (h : e.RefsIn R) : ∀ d ∈ e.direct, d.RefsIn R :=
  fun d hd x hx => h x (mem_parts.2 (.inr ⟨d, hd, hx⟩))

/-- In an expression that is no name they stand in what it is made of. -/
theorem refsIn_of_direct {e : Expr} (he : ∀ x, e ≠ .ref x) (h : ∀ d ∈ e.direct, d.RefsIn R) : e.RefsIn R := by
  intro x hx
  rcases mem_parts.1 hx with heq | ⟨d, hd, hx⟩
  · exact absurd heq.symm (he x)
  · exact h d hd x hx

end Refs

end Snack.Core
