import Snack.Proofs.Core.Parts
import Snack.Proofs.Simplify.Sites
import Snack.Proofs.Simplify.Writable
import Snack.Proofs.Typing.Slots

/-! Simplification keeps types, as long as only floats are divided and raised to powers: a quotient of
integers that comes out as a constant is a float. What takes the place of an expression may be stored
wherever that may, and where an operator, a branch or a range asks for a basic type it is of the very
same type. -/

namespace Snack.Simplify

open Snack.Core Snack.Typing

/-! ### Constants -/

/-- The type of a literal. -/
def typeOf : Number → Ty
  | .int _ => .int
  | .float _ => .float

theorem typ_ofNumber (x : Number) : (ofNumber x).typ = typeOf x := by
  cases x <;> rfl

theorem typeOf_neg (x : Number) : typeOf x.neg = typeOf x := by
  cases x <;> rfl

theorem typ_of_number? {e : Expr} {x : Number} (h : number? e = some x) : e.typ = typeOf x := by
  unfold number? at h
  split at h <;> cases h <;> rfl

theorem typeOf_arith? {f : Int → Int → Int} {g : Float → Float → Float} {x y z : Number}
    (h : Number.arith? f g x y = some z) (hxy : typeOf x = typeOf y) : typeOf z = typeOf x := by
  cases x <;> cases y
  · cases h
    rfl
  · cases hxy
  · cases hxy
  · cases h
    rfl

theorem typeOf_div? {x y z : Number} (h : Number.div? x y = some z) (hx : typeOf x = .float) :
    typeOf z = .float := by
  cases x with
  | int n => cases hx
  | float x =>
    simp only [Number.div?] at h
    split at h
    · cases h
    · obtain ⟨w, -, rfl⟩ := Option.map_eq_some_iff.1 h
      rfl

theorem typeOf_pow? {x y z : Number} (h : Number.pow? x y = some z) (hx : typeOf x = .float) :
    typeOf z = .float := by
  cases x with
  | int n => cases hx
  | float x =>
    simp only [Number.pow?, Option.bind_eq_bind, Option.bind_eq_some_iff] at h
    obtain ⟨w, -, h⟩ := h
    obtain ⟨v, -, rfl⟩ := Option.map_eq_some_iff.1 h
    rfl

theorem typ_ofNumber? {x : Number} {v : Number.Value} (h : Number.Value.ofNumber? x = some v) :
    (ofValue v).typ = typeOf x := by
  unfold Number.Value.ofNumber? at h
  split at h
  · split at h <;> cases h
    rfl
  · cases h
    rfl

/-- A comparison of constants is a truth value, and what is calculated from constants of one type is of
that type, if it is no quotient or power of integers. -/
theorem typ_fold? {x y : Number} {op : BinaryOp} {v : Number.Value} (h : Number.fold? x op y = some v) :
    (op ∈ [.lt, .le, .gt, .ge, .eq, .ne] ∧ (ofValue v).typ = .bool) ∨
    (op ∈ [.add, .sub, .mul, .div, .pow] ∧ (typeOf x = typeOf y →
      (op = .div ∨ op = .pow → typeOf x = .float) → (ofValue v).typ = typeOf x)) := by
  unfold Number.fold? at h
  split at h
  case h_1 | h_2 | h_3 =>
    obtain ⟨z, hz, hv⟩ := Option.bind_eq_some_iff.1 h
    refine .inr ⟨by decide, fun hxy _ => ?_⟩
    rw [typ_ofNumber? hv, typeOf_arith? hz hxy]
  case h_4 =>
    obtain ⟨z, hz, hv⟩ := Option.bind_eq_some_iff.1 h
    refine .inr ⟨by decide, fun _ hfloat => ?_⟩
    rw [typ_ofNumber? hv, typeOf_div? hz (hfloat (.inl rfl)), hfloat (.inl rfl)]
  case h_5 =>
    obtain ⟨z, hz, hv⟩ := Option.bind_eq_some_iff.1 h
    refine .inr ⟨by decide, fun _ hfloat => ?_⟩
    rw [typ_ofNumber? hv, typeOf_pow? hz (hfloat (.inr rfl)), hfloat (.inr rfl)]
  case h_12 => cases h
  all_goals
    cases h
    exact .inl ⟨by decide, rfl⟩

/-! ### Operations -/

/-- Arithmetic, order and logic work on operands of one basic type. -/
theorem prim_of_binaryRule {op : BinaryOp} {t u v : Ty} (h : BinaryRule op t u v)
    (hop : op ∈ calculations) : ∃ p : Prim, p ≠ .any ∧ t = .prim p ∧ u = .prim p := by
  cases h with
  | logic => exact ⟨.bool, by decide, rfl, rfl⟩
  | coalesce => simp [calculations] at hop
  | order _ ht =>
    obtain ⟨p, hp, rfl⟩ := prim_of_isNumericOrString ht
    exact ⟨p, hp, rfl, rfl⟩
  | equality h =>
    simp only [List.mem_cons, List.not_mem_nil, or_false] at h
    rcases h with rfl | rfl <;> simp [calculations] at hop
  | add ht =>
    obtain ⟨p, hp, rfl⟩ := prim_of_isNumericOrString ht
    exact ⟨p, hp, rfl, rfl⟩
  | arith _ ht =>
    obtain ⟨p, hp, rfl⟩ := prim_of_isNumeric ht
    exact ⟨p, hp, rfl, rfl⟩

/-- What may come down to an operand has the type of its operands. -/
theorem same_of_absorbing {op : BinaryOp} {t u v : Ty} (h : BinaryRule op t u v)
    (hop : op ∈ absorbing) : t = v ∧ u = v := by
  cases h with
  | coalesce => simp [absorbing] at hop
  | order h | equality h =>
    simp only [List.mem_cons, List.not_mem_nil, or_false] at h
    rcases h with rfl | rfl | rfl | rfl <;> simp [absorbing] at hop
  | _ => exact ⟨rfl, rfl⟩

theorem bool_of_comparison {op : BinaryOp} {t u v : Ty} (h : BinaryRule op t u v)
    (hop : op ∈ [.lt, .le, .gt, .ge, .eq, .ne]) : v = .bool := by
  cases h with
  | logic | order | equality => rfl
  | coalesce | add => simp at hop
  | arith h =>
    simp only [List.mem_cons, List.not_mem_nil, or_false] at h
    rcases h with rfl | rfl | rfl | rfl | rfl <;> simp at hop

/-- An operation on simplified operands can be stored where the operation on the operands can. -/
theorem assignable_binary {op : BinaryOp} {l r l' r' : Expr} {t : Ty}
    (h : BinaryRule op l.typ r.typ t) (ht : t.Known) (hl : l'.typ.assignable l.typ = true)
    (hr : r'.typ.assignable r.typ = true) (hfloat : op = .div ∨ op = .pow → l.typ = .float) :
    (binary op l' r' t).typ.assignable t = true := by
  unfold binary
  cases hb : binary? op l' r' t with
  | none => exact ht.assignable_self
  | some e =>
    show e.typ.assignable t = true
    cases reduces_binary? hb with
    | present => exact Ty.assignable_trans hr (coalesce_inv h).2
    | left hop => exact (same_of_absorbing h hop).1 ▸ hl
    | right hop => exact (same_of_absorbing h hop).2 ▸ hr
    | negated => exact (same_of_absorbing h (by decide)).2 ▸ hr
    | oneInt => rfl
    | oneFloat =>
      rw [← (same_of_absorbing h (by decide)).1, hfloat (.inr rfl)]
      rfl
    | @folded _ _ x y v hx hy hv =>
      rcases typ_fold? hv with ⟨hop, htyp⟩ | ⟨hop, htyp⟩
      · rw [htyp, bool_of_comparison h hop]
        rfl
      · have hops : op ∈ absorbing ∧ op ∈ calculations := by
          simp only [List.mem_cons, List.not_mem_nil, or_false] at hop
          rcases hop with rfl | rfl | rfl | rfl | rfl <;> exact ⟨by decide, by decide⟩
        obtain ⟨p, hp, hlp, hrp⟩ := prim_of_binaryRule h hops.2
        -- both constants are of the type of the operands
        have hxp : typeOf x = .prim p := by
          rw [← typ_of_number? hx]
          exact Ty.eq_of_assignable_prim (hlp ▸ hl) hp
        have hyp : typeOf y = .prim p := by
          rw [← typ_of_number? hy]
          exact Ty.eq_of_assignable_prim (hrp ▸ hr) hp
        have hv : (ofValue v).typ = t := by
          rw [htyp (hxp.trans hyp.symm) fun hdiv => hxp.trans (hlp.symm.trans (hfloat hdiv)), hxp, ← hlp]
          exact (same_of_absorbing h hops.1).1
        rw [hv]
        exact ht.assignable_self

theorem assignable_unary {op : UnaryOp} {e e' : Expr} (ht : e.typ.Known)
    (he : e'.typ.assignable e.typ = true) : (unary op e' e.typ).typ.assignable e.typ = true := by
  unfold unary
  split
  · next x hx =>
    rw [typ_ofNumber, typeOf_neg, ← typ_of_number? hx]
    exact he
  · exact ht.assignable_self

/-! ### Expressions -/

theorem float_of_inFloats {op : BinaryOp} {l r : Expr} {t : Ty} (h : (Expr.binary op l r t).inFloats = true)
    (hop : op = .div ∨ op = .pow) : l.typ = .float := by
  rcases hop with rfl | rfl <;> simp [Expr.inFloats] at h <;> exact Ty.eq_of_equiv h.1

/-- The simplified form of an expression can be stored wherever the expression can. -/
theorem assignable_expr {M : Nat → Members} {e : Expr} (h : Typed Proper Ty.Written M e)
    (hM : ∀ k name t, (M k).typ? name = some t → t.Known) (hdiv : e.DividesFloats) :
    (expr e).typ.assignable e.typ = true := by
  have hknown := h.known hM
  cases h with
  | binary hl hr hrule =>
    obtain ⟨hself, hinner⟩ := List.forall_mem_cons.1 hdiv
    obtain ⟨hdl, hdr⟩ := List.forall_mem_append.1 hinner
    exact assignable_binary hrule hknown (assignable_expr hl hM hdl) (assignable_expr hr hM hdr)
      (float_of_inFloats hself)
  | unary he => exact assignable_unary hknown (assignable_expr he hM (List.forall_mem_cons.1 hdiv).2)
  | _ => exact hknown.assignable_self

/-- What comes down from an expression of a basic type is of the same type. -/
theorem equiv_expr {M : Nat → Members} {e : Expr} {p : Prim} (h : Typed Proper Ty.Written M e)
    (hM : ∀ k name t, (M k).typ? name = some t → t.Known) (hdiv : e.DividesFloats)
    (hp : p ≠ .any) (ht : e.typ = .prim p) : (expr e).typ.equiv e.typ = true := by
  have hassign := assignable_expr h hM hdiv
  rw [ht] at hassign ⊢
  rw [Ty.eq_of_assignable_prim hassign hp]
  exact (Ty.Known.prim p).equiv_self

theorem typed_partsOfAll {M : Nat → Members} {es : List Expr}
    (h : ∀ e ∈ es, ∀ d ∈ e.parts, Typed Proper Ty.Written M d) :
    ∀ d ∈ partsOfAll es, Typed Proper Ty.Written M d := by
  intro d hd
  obtain ⟨e, he, hd⟩ := mem_partsOfAll.1 hd
  exact h e he d hd

/-- The parts of an expression that obeys the rules obey them too. -/
theorem typed_parts {M : Nat → Members} {e : Expr} (h : Typed Proper Ty.Written M e) :
    ∀ d ∈ e.parts, Typed Proper Ty.Written M d := by
  induction h with
  | int n => simpa [Expr.parts, Expr.inner] using .int n
  | float x => simpa [Expr.parts, Expr.inner] using .float x
  | str t => simpa [Expr.parts, Expr.inner] using .str t
  | bool b => simpa [Expr.parts, Expr.inner] using .bool b
  | ref h => simpa [Expr.parts, Expr.inner] using .ref h
  | emptyArray h => simpa [Expr.parts, Expr.inner] using .emptyArray h
  | emptyOptional h => simpa [Expr.parts, Expr.inner] using .emptyOptional h
  | binary hl hr h ihl ihr =>
    exact List.forall_mem_cons.2 ⟨.binary hl hr h, List.forall_mem_append.2 ⟨ihl, ihr⟩⟩
  | unary he h ih => exact List.forall_mem_cons.2 ⟨.unary he h, ih⟩
  | call hf ht hn ha ihf iha =>
    exact List.forall_mem_cons.2
      ⟨.call hf ht hn ha, List.forall_mem_append.2 ⟨ihf, typed_partsOfAll iha⟩⟩
  | construct hc hk hn ha iha => exact List.forall_mem_cons.2 ⟨.construct hc hk hn ha, typed_partsOfAll iha⟩
  | items ho ht ih => exact List.forall_mem_cons.2 ⟨.items ho ht, ih⟩
  | member ho hop ht hm ih => exact List.forall_mem_cons.2 ⟨.member ho hop ht hm, ih⟩
  | optionalMember ho ht hm ih => exact List.forall_mem_cons.2 ⟨.optionalMember ho ht hm, ih⟩
  | array he ht hnil ih => exact List.forall_mem_cons.2 ⟨.array he ht hnil, typed_partsOfAll ih⟩
  | tuple he ih => exact List.forall_mem_cons.2 ⟨.tuple he, typed_partsOfAll ih⟩
  | dict hk hv ht hnil ihk ihv =>
    refine List.forall_mem_cons.2 ⟨.dict hk hv ht hnil, fun d hd => ?_⟩
    obtain ⟨a, ha, hd⟩ := mem_partsOfEntries.1 hd
    rcases hd with hd | hd
    · exact ihk a ha d hd
    · exact ihv a ha d hd

theorem prim_of_ownOperand {M : Nat → Members} {d e : Expr} (h : Typed Proper Ty.Written M e)
    (hd : d ∈ e.ownOperands) : ∃ p : Prim, p ≠ .any ∧ d.typ = .prim p := by
  cases h with
  | binary hl hr hrule =>
    simp only [Expr.ownOperands] at hd
    split at hd
    · next hop =>
      obtain ⟨p, hp, hlp, hrp⟩ := prim_of_binaryRule hrule hop
      simp only [List.mem_cons, List.not_mem_nil, or_false] at hd
      rcases hd with rfl | rfl
      · exact ⟨p, hp, hlp⟩
      · exact ⟨p, hp, hrp⟩
    · cases hd
  | unary he hrule =>
    obtain rfl := List.mem_singleton.1 hd
    exact prim_of_unaryRule hrule
  | _ => cases hd

/-- All operands of arithmetic, order and logic keep their types. -/
theorem equiv_operands {M : Nat → Members} {d e : Expr} (h : Typed Proper Ty.Written M e)
    (hM : ∀ k name t, (M k).typ? name = some t → t.Known) (hdiv : e.DividesFloats)
    (hd : d ∈ e.operands) : (expr d).typ.equiv d.typ = true := by
  obtain ⟨c, hc, hdc⟩ := List.mem_flatMap.1 hd
  obtain ⟨p, hp, ht⟩ := prim_of_ownOperand (typed_parts h c hc) hdc
  have hpart : d ∈ e.parts :=
    Expr.parts_subset hc (List.mem_cons_of_mem _ (ownOperands_subset_inner hdc))
  exact equiv_expr (typed_parts h d hpart) hM (hdiv.mono (Expr.parts_subset hpart)) hp ht

/-- Simplification leaves a slot what it is. -/
theorem keepsSlots_expr : KeepsSlots expr where
  ref _ := rfl
  member _ _ _ _ := rfl
  call _ args _ := ⟨exprs args, rfl⟩
  construct _ args := ⟨exprs args, rfl⟩
  coalesce l r t := by
    simp only [expr, binary, binary?]
    split
    · exact .inr rfl
    · exact .inl ⟨_, _, rfl⟩
  dict _ _ := rfl
  emptyOptional _ := rfl

/-! ### Operands that are left -/

theorem operands_ofValue (v : Number.Value) : (ofValue v).operands = [] := by
  rcases v with (n | x) | b <;> rfl

theorem operands_ofNumber (x : Number) : (ofNumber x).operands = [] := operands_ofValue (.number x)

/-- An operation on simplified operands has no operands but these and theirs. -/
theorem operands_binary_subset {op : BinaryOp} {l r : Expr} {t : Ty} :
    (binary op l r t).operands ⊆ (Expr.binary op l r t).operands := by
  unfold binary
  cases hb : binary? op l r t with
  | none => exact List.Subset.refl _
  | some e =>
    rw [operands_binary]
    cases reduces_binary? hb with
    | present | right =>
      exact List.Subset.trans (List.subset_append_right _ _) (List.subset_append_right _ _)
    | left => exact List.Subset.trans (List.subset_append_left _ _) (List.subset_append_right _ _)
    | negated =>
      show (Expr.unary .neg r r.typ).operands ⊆ _
      rw [operands_unary]
      refine List.cons_subset.2 ⟨?_, ?_⟩
      · exact List.mem_append_left _ (by simp [Expr.ownOperands, calculations])
      · exact List.Subset.trans (List.subset_append_right _ _) (List.subset_append_right _ _)
    | oneInt => exact List.nil_subset _
    | oneFloat => exact List.nil_subset _
    | folded =>
      show (ofValue _).operands ⊆ _
      rw [operands_ofValue]
      exact List.nil_subset _

theorem operands_unary_subset {op : UnaryOp} {e : Expr} {t : Ty} :
    (unary op e t).operands ⊆ (Expr.unary op e t).operands := by
  rcases unary_cases op e t with h | ⟨x, h⟩
  · rw [h]
    exact List.Subset.refl _
  · rw [h, operands_ofNumber]
    exact List.nil_subset _

mutual

/-- The operands in a simplified expression are simplified operands of the expression. -/
theorem operands_expr (e : Expr) : (expr e).operands ⊆ e.operands.map expr := by
  cases e with
  | binary op l r t =>
    have hown : (Expr.binary op (expr l) (expr r) t).ownOperands =
        (Expr.binary op l r t).ownOperands.map expr := by
      simp only [Expr.ownOperands]
      split <;> rfl
    refine List.Subset.trans operands_binary_subset ?_
    rw [operands_binary, operands_binary, List.map_append, List.map_append, hown]
    exact append_subset_append (List.Subset.refl _)
      (append_subset_append (operands_expr l) (operands_expr r))
  | unary op o t =>
    refine List.Subset.trans operands_unary_subset ?_
    rw [operands_unary, operands_unary]
    exact List.cons_subset_cons _ (operands_expr o)
  | call f args t =>
    rw [expr, operands_call, operands_call, List.map_append]
    exact append_subset_append (operands_expr f) (operands_exprs args)
  | construct c args => exact operands_exprs args
  | member o op field t => exact operands_expr o
  | array es t => exact operands_exprs es
  | tuple es t => exact operands_exprs es
  | dict es t => exact operands_entries es
  | _ => exact List.nil_subset _

theorem operands_exprs (es : List Expr) : operandsOfAll (exprs es) ⊆ (operandsOfAll es).map expr := by
  cases es with
  | nil => exact List.nil_subset _
  | cons e es =>
    rw [exprs, operandsOfAll_cons, operandsOfAll_cons, List.map_append]
    exact append_subset_append (operands_expr e) (operands_exprs es)

theorem operands_entries (es : List (Expr × Expr)) :
    operandsOfEntries (entries es) ⊆ (operandsOfEntries es).map expr := by
  cases es with
  | nil => exact List.nil_subset _
  | cons e es =>
    obtain ⟨k, v⟩ := e
    rw [entries, operandsOfEntries_cons, operandsOfEntries_cons, List.map_append, List.map_append]
    exact append_subset_append (append_subset_append (operands_expr k) (operands_expr v))
      (operands_entries es)

end

/-! ### Sites -/

/-- A site that obeys the rules. Tests and bounds are of basic types. -/
structure SoundSite (M : Nat → Members) (s : Site) : Prop where
  typed : Typed Proper Ty.Written M s.expr
  basic : s.role ≠ .value → ∃ p : Prim, p ≠ .any ∧ s.expr.typ = .prim p

/-- All sites of a node are sound, whatever is declared there. -/
def SoundNode (M : Nat → Members) (n : Node) : Prop := ∀ env, ∀ x ∈ sitesIn env n, SoundSite M x

section Sites

variable {M : Nat → Members} {env : List Entity}

theorem SoundSite.value {e : Expr} (h : Typed Proper Ty.Written M e) : SoundSite M ⟨.value, e, env⟩ where
  typed := h
  basic hrole := absurd rfl hrole

theorem SoundSite.test {e : Expr} (h : Typed Proper Ty.Written M e) (ht : e.typ = .bool) :
    SoundSite M ⟨.test, e, env⟩ where
  typed := h
  basic _ := ⟨.bool, by decide, ht⟩

theorem SoundSite.bound {e : Expr} (h : Typed Proper Ty.Written M e) (ht : e.typ.isNumeric = true) :
    SoundSite M ⟨.bound, e, env⟩ where
  typed := h
  basic _ := prim_of_isNumeric ht

theorem soundSites_map {es : List Expr} (h : ∀ e ∈ es, Typed Proper Ty.Written M e) :
    ∀ x ∈ es.map (⟨.value, ·, env⟩), SoundSite M x :=
  List.forall_mem_map.2 fun e he => .value (h e he)

end Sites

theorem soundNode_of_wellTyped {M : Nat → Members} {r : Option Ty} {n : Node} (h : WellTyped M r n) :
    SoundNode M n := by
  induction h with
  | declare _ _ hi => exact fun env => soundSites_map (by simpa using fun e he => (hi e he).1)
  | function _ _ ih => exact ih
  | @classDecl _ c _ _ _ _ _ _ _ _ _ _ ih => exact fun env => forall_sitesOfMethods ih c env 0
  | assign ht hs _ => exact fun env => by simpa [sitesIn, Stmt.sites] using ⟨SoundSite.value ht, .value hs⟩
  | addAssign ht hs _ _ => exact fun env => by simpa [sitesIn, Stmt.sites] using ⟨SoundSite.value ht, .value hs⟩
  | increment ht _ => exact fun env => by simpa [sitesIn, Stmt.sites] using SoundSite.value ht
  | decrement ht _ => exact fun env => by simpa [sitesIn, Stmt.sites] using SoundSite.value ht
  | ifElse ht hbool _ _ ihb ihe =>
    exact fun env => List.forall_mem_cons.2
      ⟨.test ht hbool, List.forall_mem_append.2 ⟨forall_sitesOfBlock ihb env, ihe env⟩⟩
  | whileLoop ht hbool _ ihb =>
    exact fun env => List.forall_mem_cons.2 ⟨.test ht hbool, forall_sitesOfBlock ihb env⟩
  | rangeLoop _ _ _ hl hln hh hhn _ _ ihb =>
    exact fun env => List.forall_mem_cons.2
      ⟨.bound hl hln, List.forall_mem_cons.2 ⟨.bound hh hhn, forall_sitesOfBlock ihb _⟩⟩
  | eachElement _ _ hc _ _ ihb =>
    exact fun env => List.forall_mem_cons.2 ⟨.value hc, forall_sitesOfBlock ihb _⟩
  | eachEntry _ _ _ _ hc _ _ ihb =>
    exact fun env => List.forall_mem_cons.2 ⟨.value hc, forall_sitesOfBlock ihb _⟩
  | retNone => exact fun env => by simp [sitesIn, Stmt.sites]
  | ret _ he _ => exact fun env => by simpa [sitesIn, Stmt.sites] using SoundSite.value he
  | brk => exact fun env => by simp [sitesIn, Stmt.sites]
  | print he => exact fun env => soundSites_map he
  | call he => exact fun env => by simpa [sitesIn, Stmt.sites] using SoundSite.value he
  | none => exact fun env => by simp [sitesIn, Else.sites]
  | block _ ihb => exact forall_sitesOfBlock ihb
  | elseIf ht hbool _ _ ihb ihe =>
    exact fun env => List.forall_mem_cons.2
      ⟨.test ht hbool, List.forall_mem_append.2 ⟨forall_sitesOfBlock ihb env, ihe env⟩⟩
  | body _ _ _ _ _ ihb => exact fun env => forall_sitesOfBlock ihb _

/-! ### Programs -/

/-- In an accepted program an expression whose quotients and powers are all of floats comes down to
something that can be stored wherever it can. Every site that is left after simplification stems from one
of the program; if that has such an expression, a test or a bound has the type it had, and the operands
of arithmetic, order and logic that are left have the types of the operands they stem from. -/
theorem program_keeps_types {tree : Tree.Program} {p : Program} {st : State}
    (h : analyze tree = (.ok p, st)) :
    (∀ s ∈ p.sites, ∀ e ∈ s.expr.parts, e.DividesFloats → (expr e).typ.assignable e.typ = true) ∧
    ∀ t ∈ (program p).sites, ∃ s ∈ p.sites, StemsFrom t s ∧ (s.expr.DividesFloats →
      (t.role ≠ .value → t.expr.typ.equiv s.expr.typ = true) ∧
      ∀ d ∈ t.expr.operands, ∃ c ∈ s.expr.operands, d = expr c ∧ d.typ.equiv c.typ = true) := by
  obtain ⟨hsound, hwell⟩ := (accepts_of_analyze h).sound Sound.initial trivial
  have hM : ∀ k name t, (st.membersOf k).typ? name = some t → t.Known :=
    fun _ _ _ ht => hsound.typ?_known ht
  have hsites : ∀ s ∈ p.sites, SoundSite st.membersOf s :=
    forall_sitesOfBlock (fun s hs => soundNode_of_wellTyped (hwell (.refl _ st) s hs)) []
  refine ⟨fun s hs e he hdiv => ?_, fun t ht => ?_⟩
  · exact assignable_expr (typed_parts (hsites s hs).typed e he) hM hdiv
  · obtain ⟨s, hs, hstem⟩ := stemFrom_program p t ht
    have hsite := hsites s hs
    refine ⟨s, hs, hstem, fun hdiv => ⟨fun hrole => ?_, fun d hd => ?_⟩⟩
    · obtain ⟨q, hq, htyp⟩ := hsite.basic (hstem.role ▸ hrole)
      rw [hstem.expr]
      exact equiv_expr hsite.typed hM hdiv hq htyp
    · rw [hstem.expr] at hd
      obtain ⟨c, hc, rfl⟩ := List.mem_map.1 (operands_expr s.expr hd)
      exact ⟨c, hc, rfl, equiv_operands hsite.typed hM hdiv hc⟩

/-- A variable for anything with a default of a narrower type, a test with a part that always holds, and a
range that begins at a quotient of floats. -/
def halvesTree : Tree.Program :=
  let pi : Tree.Expr := .var ⟨1, 1⟩ "PI"
  [.varDecl ⟨1, 1⟩ (some (.named ⟨1, 1⟩ "any")) "v"
     (some (.binary ⟨1, 1⟩ .coalesce (.emptyOptional ⟨1, 1⟩ (.named ⟨1, 1⟩ "any"))
       (.binary ⟨1, 1⟩ .coalesce (.emptyOptional ⟨1, 1⟩ (.named ⟨1, 1⟩ "bool")) (.bool ⟨1, 1⟩ true)))),
   .whileLoop ⟨2, 1⟩ (.binary ⟨2, 1⟩ .and (.bool ⟨2, 1⟩ true) (.binary ⟨2, 1⟩ .lt pi pi)) [.brk ⟨3, 1⟩],
   .rangeLoop ⟨4, 1⟩ (some "i") (.binary ⟨4, 1⟩ .div pi pi) (some .through) pi
     [.print ⟨5, 1⟩ [.var ⟨5, 1⟩ "i"]]]

def halves : Program :=
  let pi : Expr := .ref ⟨11, .constant, "PI", .float⟩
  let i : Entity := ⟨15, .var false, "i", .float⟩
  ⟨[.declare ⟨14, .var true, "v", .any⟩
      (some (.binary .coalesce (.emptyOptional (.optional .any))
        (.binary .coalesce (.emptyOptional (.optional .bool)) (.bool true) .bool) .any)) ⟨1, 1⟩,
    .whileLoop (.binary .and (.bool true) (.binary .lt pi pi .bool) .bool) [.brk ⟨3, 1⟩] ⟨2, 1⟩,
    .rangeLoop i (.binary .div pi pi .float) .through pi [.print [.ref i] ⟨5, 1⟩] ⟨4, 1⟩]⟩

theorem program_keeps_types_halves :
    (analyze halvesTree).1 = .ok halves ∧ (∀ s ∈ halves.sites, s.expr.DividesFloats) ∧
    (∀ s ∈ halves.sites, ∀ e ∈ s.expr.parts, e.DividesFloats → (expr e).typ.assignable e.typ = true) ∧
    ∀ t ∈ (program halves).sites, ∃ s ∈ halves.sites, StemsFrom t s ∧ (s.expr.DividesFloats →
      (t.role ≠ .value → t.expr.typ.equiv s.expr.typ = true) ∧
      ∀ d ∈ t.expr.operands, ∃ c ∈ s.expr.operands, d = expr c ∧ d.typ.equiv c.typ = true) :=
  have h : (analyze halvesTree).1 = .ok halves := by rfl
  ⟨h, by decide, program_keeps_types (Prod.ext h rfl)⟩

end Snack.Simplify
