import Snack.Proofs.Core.Spelled
import Snack.Proofs.Core.Writable
import Snack.Proofs.Simplify.Reducts
import Snack.Proofs.Typing.Sound

/-! A program that obeys the rules can be written out, as it is and in its simplified form. Simplifying
does not keep types: a constant may have another type than the operation it replaces. But what is called
stays what it was, so the length of nothing is not taken, and no name comes up that is not a word. -/

namespace Snack.Simplify

open Snack.Core Snack.Typing

/-! ### Types of operations -/

theorem written_of_numericOrString {t : Ty} (h : t.isNumericOrString = true) : t.Written := by
  simp only [Ty.isNumericOrString, Ty.isNumeric, Bool.or_eq_true] at h
  rcases h with (h | h) | h <;> rw [Ty.eq_of_equiv h] <;> exact .prim _

theorem assignable_written {u b : Ty} (hu : u.Written) (h : u.assignable b = true) : b.Written := by
  have hor : b.equiv .any = true ∨ u.equiv b = true := by
    cases hu <;> simpa [Ty.assignable, Ty.flows] using h
  rcases hor with h | h
  · rw [Ty.eq_of_equiv h]
    exact .prim _
  · rw [← Ty.eq_of_equiv h]
    exact hu

theorem coalesce_inv {t u v : Ty} (h : BinaryRule .coalesce t u v) :
    t = .optional v ∧ u.assignable v = true := by
  cases h with
  | coalesce h => exact ⟨rfl, h⟩
  | logic h | order h _ | equality h | arith h _ => simp at h

/-- Only `??` can give a value of a type without a spelling. -/
theorem written_of_binaryRule {op : BinaryOp} {t u v : Ty} (h : BinaryRule op t u v)
    (hop : op ≠ .coalesce) : v.Written := by
  cases h with
  | logic | order | equality => exact .prim _
  | coalesce => exact absurd rfl hop
  | add ht => exact written_of_numericOrString ht
  | arith _ ht => exact written_of_numericOrString (by simp [Ty.isNumericOrString, ht])

section Callee

variable {M : Nat → Members}

/-- What comes down to an empty optional has a type with a spelling. -/
theorem written_of_emptyOptional {e : Expr} (h : Typed Proper Ty.Written M e) {t : Ty}
    (he : expr e = .emptyOptional t) : e.typ.Written := by
  induction h with
  | @binary op l r v _ _ hrule _ ihr =>
    by_cases hop : op = .coalesce
    · subst hop
      simp only [expr, binary, binary?] at he
      split at he
      · exact assignable_written (ihr he) (coalesce_inv hrule).2
      · cases he
    · exact written_of_binaryRule hrule hop
  | emptyOptional h => exact .optional h
  | @unary op o _ _ _ =>
    rcases unary_cases op (expr o) o.typ with h | ⟨x, h⟩
    · rw [expr, h] at he
      cases he
    · rw [expr, h] at he
      cases x <;> cases he
  | _ => cases he

/-- A function that comes down to an entity is that entity. -/
theorem eq_ref_of_expr {f : Expr} (h : Typed Proper Ty.Written M f) {ps : List Ty} {r : Ty}
    (ht : f.typ = .function ps r) {x : Entity} (hf : expr f = .ref x) : f = .ref x := by
  cases h with
  | ref => exact hf
  | @binary op l r v hl _ hrule =>
    have hv : v = .function ps _ := ht
    by_cases hop : op = .coalesce
    · subst hop
      simp only [expr, binary, binary?] at hf
      split at hf
      · next u hu =>
        -- an empty optional would have a function type without a spelling
        have hw := written_of_emptyOptional hl hu
        rw [(coalesce_inv hrule).1, hv] at hw
        cases hw with
        | optional hw => cases hw
      · cases hf
    · have hw := written_of_binaryRule hrule hop
      rw [hv] at hw
      cases hw
  | @unary op o _ _ =>
    rcases unary_cases op (expr o) o.typ with h | ⟨y, h⟩
    · rw [expr, h] at hf
      cases hf
    · rw [expr, h] at hf
      cases y <;> cases hf
  | _ => cases hf

/-- A library function with a fixed number of parameters has at least one. -/
theorem args_ne_nil {f : Expr} {args : List Expr} {ps : List Ty} {r : Ty}
    (hf : Typed Proper Ty.Written M f)
    (ht : f.typ = .function ps r) (hn : args.length = ps.length ∨ Variadic f) {x : Entity}
    (hx : f = .ref x) (hk : x.kind = .builtin false) : args ≠ [] := by
  subst hx
  have hparams : ∀ e ∈ standardLibrary, e.kind = .builtin false → ∀ r, e.typ ≠ .function [] r := by
    simp [standardLibrary]
  have hmem : x ∈ standardLibrary := by
    cases hf with
    | ref hx =>
      cases hx with
      | standard h => exact h
      | _ => cases hk
  rcases hn with hn | hn
  · rintro rfl
    obtain rfl : ps = [] := List.length_eq_zero_iff.1 hn.symm
    exact hparams x hmem hk r ht
  · cases hn
    cases hk

end Callee

/-! ### Expressions -/

theorem exprs_eq_map (es : List Expr) : exprs es = es.map expr := by
  induction es with
  | nil => rfl
  | cons e es ih => rw [exprs, ih, List.map_cons]

theorem entries_eq_map (es : List (Expr × Expr)) :
    entries es = es.map fun e => (expr e.1, expr e.2) := by
  induction es with
  | nil => rfl
  | cons e es ih => rw [entries, ih, List.map_cons]

section Expressions

variable {M : Nat → Members} {e : Expr}

theorem writable_ofNumber (x : Number) : Writable (ofNumber x) := by
  cases x with
  | int n => exact .int n
  | float x => exact .float x

theorem writable_reduct {l r : Expr} (h : Reduct l r e) (hl : Writable l) (hr : Writable r) :
    Writable e := by
  cases h with
  | left => exact hl
  | right => exact hr
  | negated => exact .unary hr hr.known
  | literal v =>
    cases v with
    | number x => exact writable_ofNumber x
    | bool b => exact .bool b

theorem writable_binary {op : BinaryOp} {l r : Expr} {t : Ty} (hl : Writable l) (hr : Writable r)
    (ht : t.Known) : Writable (binary op l r t) := by
  rcases binary_cases op l r t with h | h
  · rw [h]
    exact .binary hl hr ht
  · exact writable_reduct h hl hr

theorem writable_unary {op : UnaryOp} {t : Ty} (he : Writable e) (ht : t.Known) :
    Writable (unary op e t) := by
  rcases unary_cases op e t with h | ⟨x, h⟩
  · rw [h]
    exact .unary he ht
  · rw [h]
    exact writable_ofNumber x

theorem writable_exprs {es : List Expr} (h : ∀ e ∈ es, Writable (expr e)) :
    ∀ e ∈ exprs es, Writable e := by
  rw [exprs_eq_map]
  exact List.forall_mem_map.2 h

/-- An expression that obeys the rules can be written out, and so can its simplified form. -/
theorem writable_of_typed (h : Typed Proper Ty.Written M e)
    (hM : ∀ k name t, (M k).typ? name = some t → t.Known) : Writable e ∧ Writable (expr e) := by
  induction h with
  | int n => exact ⟨.int n, .int n⟩
  | float x => exact ⟨.float x, .float x⟩
  | str s => exact ⟨.str s, .str s⟩
  | bool b => exact ⟨.bool b, .bool b⟩
  | ref h => exact ⟨.ref h, .ref h⟩
  | binary hl hr h ihl ihr =>
    have ht := h.known (hl.known hM)
    exact ⟨.binary ihl.1 ihr.1 ht, writable_binary ihl.2 ihr.2 ht⟩
  | unary he _ ih => exact ⟨.unary ih.1 (he.known hM), writable_unary ih.2 (he.known hM)⟩
  | @call f args ps r hf ht hn ha ihf iha =>
    have hr := Typed.known (.call hf ht hn ha) hM
    refine ⟨.call ihf.1 (fun a hmem => (iha a hmem).1) (fun x hx hk => args_ne_nil hf ht hn hx hk) hr,
      .call ihf.2 (writable_exprs fun a hmem => (iha a hmem).2) (fun x hx hk => ?_) hr⟩
    rw [exprs_eq_map, ne_eq, List.map_eq_nil_iff]
    exact args_ne_nil hf ht hn (eq_ref_of_expr hf ht hx) hk
  | construct hc hk _ _ iha =>
    exact ⟨.construct hc hk fun a hmem => (iha a hmem).1,
      .construct hc hk (writable_exprs fun a hmem => (iha a hmem).2)⟩
  | items ho ht ih =>
    have hk := ho.known hM
    rw [ht] at hk
    exact ⟨.member ih.1 hk, .member ih.2 hk⟩
  | member _ _ _ hm ih => exact ⟨.member ih.1 (hM _ _ _ hm), .member ih.2 (hM _ _ _ hm)⟩
  | optionalMember _ _ hm ih =>
    have hk := known_optionalOf (hM _ _ _ hm)
    exact ⟨.member ih.1 hk, .member ih.2 hk⟩
  | array he ht hnil ih =>
    have hk := Typed.known (.array he ht hnil) hM
    exact ⟨.array (fun e hmem => (ih e hmem).1) hk,
      .array (writable_exprs fun e hmem => (ih e hmem).2) hk⟩
  | tuple he ih =>
    have hk := Typed.known (.tuple he) hM
    exact ⟨.tuple (fun e hmem => (ih e hmem).1) hk,
      .tuple (writable_exprs fun e hmem => (ih e hmem).2) hk⟩
  | @dict es k v hk hv ht hnil ihk ihv =>
    have hty := Typed.known (.dict hk hv ht hnil) hM
    refine ⟨.dict (fun e hmem => (ihk e hmem).1) (fun e hmem => (ihv e hmem).1) hty, ?_⟩
    rw [expr, entries_eq_map]
    exact .dict (List.forall_mem_map.2 fun e hmem => (ihk e hmem).2)
      (List.forall_mem_map.2 fun e hmem => (ihv e hmem).2) hty
  | emptyArray h => exact ⟨.emptyArray (.array h.known), .emptyArray (.array h.known)⟩
  | emptyOptional h => exact ⟨.emptyOptional (.optional h.known), .emptyOptional (.optional h.known)⟩

end Expressions

/-! ### Statements -/

theorem functions_eq_map (fs : List Function) : functions fs = fs.map function := by
  induction fs with
  | nil => rfl
  | cons f fs ih => rw [functions, ih, List.map_cons]

theorem mem_block {s' : Stmt} {ss : List Stmt} (h : s' ∈ block ss) : ∃ s ∈ ss, s' ∈ stmt s := by
  induction ss with
  | nil => cases h
  | cons s ss ih =>
    rcases List.mem_append.1 h with h | h
    · exact ⟨s, List.mem_cons_self, h⟩
    · obtain ⟨t, ht, h⟩ := ih h
      exact ⟨t, List.mem_cons_of_mem _ ht, h⟩

section Statements

variable {P : Expr → Prop} {O : Entity → Prop} {F : Field → Prop}

theorem built_spliced {e : Else} (h : Built P O F (.rest e)) : ∀ s ∈ spliced e, Built P O F (.stmt s) := by
  cases h with
  | none => simp [spliced]
  | block hb => exact hb
  | elseIf ht hb he => simpa [spliced] using Built.ifElse ht hb he

theorem built_replaced {e : Else} (h : Built P O F (.rest e)) : Built P O F (.rest (replaced e)) := by
  cases h with
  | none => exact .block (by simp)
  | block hb => exact .block hb
  | elseIf ht hb he => exact .elseIf ht hb he

/-- What takes the place of a node is built of expressions with the property. -/
def Rebuilt (P : Expr → Prop) (O : Entity → Prop) (F : Field → Prop) : Node → Prop
  | .stmt s => ∀ s' ∈ stmt s, Built P O F (.stmt s')
  | .rest e => Built P O F (.rest (elsePart e))
  | .function f => Built P O F (.function (function f))

theorem rebuilt_block {ss : List Stmt} (h : ∀ s ∈ ss, Rebuilt P O F (.stmt s)) :
    ∀ s ∈ block ss, Built P O F (.stmt s) := by
  intro s' hs'
  obtain ⟨s, hs, hmem⟩ := mem_block hs'
  exact h s hs s' hmem

theorem rebuilt_one {s s' : Stmt} (hs : stmt s = [s']) (h : Built P O F (.stmt s')) :
    Rebuilt P O F (.stmt s) := by
  simpa [Rebuilt, hs] using h

/-- A statement that may be left out. -/
theorem rebuilt_unless {s s' : Stmt} {c : Bool} (hs : stmt s = if c then [] else [s'])
    (h : Built P O F (.stmt s')) : Rebuilt P O F (.stmt s) := by
  cases c with
  | true => simp [Rebuilt, hs]
  | false => exact rebuilt_one hs h

theorem rebuilt_of_built {Q : Expr → Prop} (hPQ : ∀ e, P e → Q (expr e)) {n : Node} (h : Built P O F n) :
    Rebuilt Q O F n := by
  induction h with
  | declare hv hi => exact rebuilt_one rfl (.declare hv (by simpa using fun e he => hPQ e (hi e he)))
  | @function f p hk _ ih =>
    refine rebuilt_one rfl (.function ?_ ih)
    obtain ⟨e, ps, b, q⟩ := f
    exact hk
  | classDecl hc hf _ ih =>
    refine rebuilt_one rfl (.classDecl hc hf ?_)
    rw [functions_eq_map]
    exact List.forall_mem_map.2 ih
  | assign ht hs => exact rebuilt_unless rfl (.assign (hPQ _ ht) (hPQ _ hs))
  | addAssign ht hs => exact rebuilt_one rfl (.addAssign (hPQ _ ht) (hPQ _ hs))
  | increment ht => exact rebuilt_one rfl (.increment (hPQ _ ht))
  | decrement ht => exact rebuilt_one rfl (.decrement (hPQ _ ht))
  | @ifElse t b e p ht _ _ ihb ihe =>
    rw [Rebuilt, stmt]
    split
    · exact rebuilt_block ihb
    · exact built_spliced ihe
    · simpa using Built.ifElse (hPQ _ ht) (rebuilt_block ihb) ihe
  | whileLoop ht _ ih => exact rebuilt_unless rfl (.whileLoop (hPQ _ ht) (rebuilt_block ih))
  | rangeLoop hi hl hh hop _ ih =>
    exact rebuilt_unless rfl (.rangeLoop hi (hPQ _ hl) (hPQ _ hh) hop (rebuilt_block ih))
  | eachLoop hi hc _ ih => exact rebuilt_unless rfl (.eachLoop hi (hPQ _ hc) (rebuilt_block ih))
  | ret hv => exact rebuilt_one rfl (.ret (by simpa using fun e he => hPQ e (hv e he)))
  | brk => exact rebuilt_one rfl .brk
  | print he =>
    refine rebuilt_one rfl (.print ?_)
    rw [exprs_eq_map]
    exact List.forall_mem_map.2 fun e hmem => hPQ e (he e hmem)
  | call he => exact rebuilt_one rfl (.call (hPQ _ he))
  | none => exact .none
  | block _ ih => exact .block (rebuilt_block ih)
  | @elseIf t b e p ht _ _ ihb ihe =>
    rw [Rebuilt, elsePart]
    split
    · exact .block (rebuilt_block ihb)
    · exact built_replaced ihe
    · exact .elseIf (hPQ _ ht) (rebuilt_block ihb) ihe
  | body hf hp _ ih => exact .body hf hp (rebuilt_block ih)

end Statements

/-- An accepted program can be written out, before and after it is simplified. -/
theorem writable_of_analyze {tree : Tree.Program} {p : Program} {st : State}
    (h : analyze tree = (.ok p, st)) : p.Writable ∧ (program p).Writable := by
  obtain ⟨hsound, hwell⟩ := (accepts_of_analyze h).sound Sound.initial trivial
  have hM : ∀ k name t, (st.membersOf k).typ? name = some t → t.Known :=
    fun _ _ _ ht => hsound.typ?_known ht
  have hb : ∀ s ∈ p.statements, Built (Typed Proper Ty.Written st.membersOf) Proper (·.typ.Known) (.stmt s) :=
    fun s hs => built_of_wellTyped (hwell (.refl _ st) s hs)
  exact ⟨fun s hs => (hb s hs).imp fun e he => (writable_of_typed he hM).1,
    rebuilt_block fun s hs => rebuilt_of_built (fun e he => (writable_of_typed he hM).2) (hb s hs)⟩

/-! ### Words -/

section Words

variable {e : Expr}

theorem spelled_ofNumber (x : Number) : Spelled (ofNumber x) := by
  cases x with
  | int n => exact .int n
  | float x => exact .float x

theorem spelled_reduct {l r : Expr} (h : Reduct l r e) (hl : Spelled l) (hr : Spelled r) : Spelled e := by
  cases h with
  | left => exact hl
  | right => exact hr
  | negated => exact .unary (by decide) hr
  | literal v =>
    cases v with
    | number x => exact spelled_ofNumber x
    | bool b => exact .bool b

theorem spelled_exprs {es : List Expr} (h : ∀ e ∈ es, Spelled (expr e)) : ∀ e ∈ exprs es, Spelled e := by
  rw [exprs_eq_map]
  exact List.forall_mem_map.2 h

theorem spelled_expr (h : Spelled e) : Spelled (expr e) := by
  induction h with
  | int n => exact .int n
  | float x => exact .float x
  | str s => exact .str s
  | bool b => exact .bool b
  | ref h => exact .ref h
  | @binary op l r t hop _ _ ihl ihr =>
    rcases binary_cases op (expr l) (expr r) t with h | h
    · rw [expr, h]
      exact .binary hop ihl ihr
    · exact spelled_reduct h ihl ihr
  | @unary op o t hop _ ih =>
    rcases unary_cases op (expr o) t with h | ⟨x, h⟩
    · rw [expr, h]
      exact .unary hop ih
    · rw [expr, h]
      exact spelled_ofNumber x
  | call _ _ ihf iha => exact .call ihf (spelled_exprs iha)
  | construct hc _ iha => exact .construct hc (spelled_exprs iha)
  | member hop hn _ ih => exact .member hop hn ih
  | array _ ih => exact .array (spelled_exprs ih)
  | tuple _ ih => exact .tuple (spelled_exprs ih)
  | dict _ _ ihk ihv =>
    rw [expr, entries_eq_map]
    exact .dict (List.forall_mem_map.2 ihk) (List.forall_mem_map.2 ihv)
  | emptyArray => exact .emptyArray
  | emptyOptional => exact .emptyOptional

theorem spelled_program {p : Program} (h : p.Spelled) : (program p).Spelled :=
  rebuilt_block fun s hs => rebuilt_of_built (fun _ he => spelled_expr he) (h s hs)

end Words

end Snack.Simplify
