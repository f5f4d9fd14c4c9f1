import Snack.Proofs.Script.Indented

/-! The first character of the text of an expression. It stands at the left end of a spine of members, calls
and lengths, and it is a minus sign only if there is a literal of negative zero there. -/

namespace Snack.Script

open Snack.Core
open Token (Word)

/-! ### Left ends -/

mutual

/-- The float literal that the text of an expression begins with. -/
def leadingFloat? : Expr → Option Float
  | .float x => some x
  | .call callee args _ => if isLen callee then firstLeadingFloat? args else leadingFloat? callee
  | .member object _ field _ =>
    if field == "items" && isDict object.typ then none else leadingFloat? object
  | _ => none

/-- The one that the text of the first of some expressions begins with. -/
def firstLeadingFloat? : List Expr → Option Float
  | [] => none
  | e :: _ => leadingFloat? e

end

/-- A literal of negative zero stands at the left end of the expression. -/
def LedByNegativeZero (e : Expr) : Prop :=
  ∃ x, leadingFloat? e = some x ∧ Number.unpack x = .zero .negative

/-- A text that has a first character, which is a minus sign exactly if `s` holds. -/
structure Signed (s : Prop) (text : String) : Prop where
  isSome : text.toList.head?.isSome = true
  minus : text.toList.head? = some '-' ↔ s

section Texts

variable {s : Prop} {a b text : String} {c : Char}

theorem Signed.append (h : Signed s a) : Signed s (a ++ b) := by
  obtain ⟨c, hc⟩ := Option.isSome_iff_exists.1 h.isSome
  have hhead : (a ++ b).toList.head? = a.toList.head? := by
    rw [String.toList_append, List.head?_append, hc, Option.some_or]
  exact ⟨hhead ▸ h.isSome, hhead ▸ h.minus⟩

/-- A text that begins with another character. -/
theorem unsigned (hs : ¬s) (h : text.toList.head?.any (· != '-') = true) : Signed s text := by
  cases hhead : text.toList.head? with
  | none => simp [hhead] at h
  | some c =>
    have hc : c ≠ '-' := by simpa [hhead] using h
    exact ⟨by simp [hhead], by simp [hhead, hc, hs]⟩

theorem unsigned_of_isDigit (hs : ¬s) {cs : List Char} (htext : text.toList = c :: cs)
    (hc : Numeral.isDigit c = true) : Signed s text := by
  refine unsigned hs ?_
  rw [htext, List.head?_cons, Option.any_some, bne_iff_ne]
  rintro rfl
  exact absurd hc (by decide)

theorem unsigned_of_isIdentifier (hs : ¬s) (h : IsIdentifier text) : Signed s text := by
  obtain ⟨c, cs, htext⟩ := List.exists_cons_of_ne_nil (List.ne_nil_of_mem h.score)
  have hc : Token.isWordChar c = true := h.word c (htext ▸ List.mem_cons_self)
  refine unsigned hs ?_
  rw [htext, List.head?_cons, Option.any_some, bne_iff_ne]
  rintro rfl
  exact absurd hc (by decide)

end Texts

/-! ### Literals -/

section Literals

variable {s : Prop}

theorem unsigned_infinity (hs : ¬s) (negative : Bool) : Signed s (infinity negative) := by
  cases negative with
  | true => exact unsigned hs (by decide)
  | false => exact unsigned hs (by decide)

theorem unsigned_parenthesized (hs : ¬s) (text : String) : Signed s ("(" ++ text ++ ")") :=
  (unsigned hs (by decide)).append.append

/-- A negative integer stands in parentheses. -/
theorem unsigned_intLiteral (hs : ¬s) (n : Int) : Signed s (intLiteral n) := by
  unfold intLiteral
  split
  · exact unsigned_infinity hs _
  · split
    · exact unsigned_parenthesized hs _
    · next hn =>
      obtain ⟨k, rfl⟩ := Int.eq_ofNat_of_zero_le (Int.not_lt.1 hn)
      obtain ⟨c, cs, hdigits, hc⟩ := (Shortest.digits_toDigits k).spelling.cons
      exact unsigned_of_isDigit hs (Nat.toList_repr.trans hdigits) hc

/-- So do a negative infinity and a negative float, but not a negative zero. -/
theorem signed_floatLiteral (x : Float) :
    Signed (Number.unpack x = .zero .negative) (floatLiteral x) := by
  unfold floatLiteral
  split
  · next h => exact unsigned_infinity (by rw [h]; rintro ⟨⟩) _
  · next h => exact unsigned_infinity (by rw [h]; rintro ⟨⟩) _
  · next h => exact unsigned_parenthesized (by rw [h]; rintro ⟨⟩) _
  · next hpos hneg hfinite =>
    unfold Shortest.text
    dsimp only
    split
    · next h => exact unsigned (by rw [h]; rintro ⟨⟩) (by decide)
    · next h => exact absurd h hpos
    · next h => exact absurd h hneg
    · next z h =>
      rw [h]
      cases z with
      | positive => exact unsigned (by rintro ⟨⟩) (by decide)
      | negative => exact ⟨rfl, fun _ => rfl, fun _ => rfl⟩
    · next z k e hk h =>
      rw [h]
      cases z with
      | positive =>
        obtain ⟨c, cs, hlayout, hc⟩ := (Shortest.spelling_layout (Shortest.digits k e).1 (Shortest.digits k e).2).cons
        exact unsigned_of_isDigit (by rintro ⟨⟩) (String.toList_ofList.trans hlayout) hc
      | negative => exact absurd h (hfinite _ _ _)

end Literals

/-! ### Expressions -/

section Expressions

variable {m : Mangling} {d n : Nat} {s : Prop}

theorem unsigned_builtin (hs : ¬s) (name : String) : Yields m n (builtin name) (Signed s) := by
  unfold builtin
  split
  case h_12 => exact .throw _
  all_goals exact .pure (unsigned hs (by decide))

theorem unsigned_constant (hs : ¬s) (name : String) : Yields m n (constant name) (Signed s) := by
  unfold constant
  split
  case h_4 => exact .throw _
  all_goals exact .pure (unsigned hs (by decide))

theorem unsigned_name (hs : ¬s) {e : Entity} (h : Word e.name) : Yields m n (nameOf m e) (Signed s) :=
  (yields_nameOf h).imp fun _ => unsigned_of_isIdentifier hs

theorem unsigned_entity (hs : ¬s) {e : Entity} (h : Nameable e) : Yields m n (entity m e) (Signed s) := by
  unfold entity
  split
  · exact unsigned_name hs h.word
  · exact unsigned_name hs h.word
  · exact unsigned_name hs h.word
  · next hk => exact absurd hk h.value
  · exact .pure (unsigned hs (by decide))
  · exact unsigned_builtin hs _
  · exact unsigned_constant hs _
  · exact .throw _

/-- The first of some texts is the one of the first expression. -/
theorem signed_first {e : Expr} {es : List Expr} (hes : ∀ a ∈ es, Spelled a)
    (h : Yields m n (expr m d e) (Signed s)) :
    Yields m n (exprs m d (e :: es)) fun ts => ∃ t ts', ts = t :: ts' ∧ Signed s t :=
  h.next fun t ht => (yields_exprs fun a ha => yields_expr (hes a ha)).next fun ts _ => .pure ⟨t, ts, rfl, ht⟩

theorem not_ledByNegativeZero {e : Expr} (h : leadingFloat? e = none) : ¬LedByNegativeZero e := by
  rintro ⟨x, hx, -⟩
  rw [h] at hx
  cases hx

theorem ledByNegativeZero_congr {d e : Expr} (h : leadingFloat? d = leadingFloat? e) :
    LedByNegativeZero d = LedByNegativeZero e := by
  rw [LedByNegativeZero, h]
  rfl

/-- What stands behind a first character of its own. -/
theorem unsigned_behind {e : Expr} (h : leadingFloat? e = none) {opening : String}
    (ho : opening.toList.head?.any (· != '-') = true) (rest : String) :
    Signed (LedByNegativeZero e) (opening ++ rest) :=
  (unsigned (not_ledByNegativeZero h) ho).append

theorem signed_call {f : Expr} {args : List Expr} {t : Ty} (ha : ∀ a ∈ args, Spelled a)
    (ihf : Yields m n (expr m d f) (Signed (LedByNegativeZero f)))
    (iha : ∀ a ∈ args, Yields m n (expr m d a) (Signed (LedByNegativeZero a))) :
    Yields m n (expr m d (.call f args t)) (Signed (LedByNegativeZero (.call f args t))) := by
  rw [expr]
  cases hlen : isLen f with
  | false =>
    rw [ledByNegativeZero_congr (e := f) (by simp [leadingFloat?, hlen])]
    refine (yields_exprs fun a hmem => yields_expr (ha a hmem)).next fun as _ => ?_
    exact ihf.next fun g hg => .pure hg.append.append.append
  | true =>
    cases args with
    | nil => exact Lays.next (.pure (Q := (· = [])) rfl) fun as has => has ▸ .throw _
    | cons a as =>
      refine (signed_first (List.forall_mem_cons.1 ha).2 (iha a List.mem_cons_self)).next fun ts hts => ?_
      obtain ⟨text, texts, rfl, htext⟩ := hts
      rw [ledByNegativeZero_congr (e := a) (by simp [leadingFloat?, firstLeadingFloat?, hlen])]
      exact .pure htext.append

theorem signed_member {o : Expr} {op : AccessOp} {field : String} {t : Ty} (ho : Spelled o)
    (ih : Yields m n (expr m d o) (Signed (LedByNegativeZero o))) :
    Yields m n (expr m d (.member o op field t)) (Signed (LedByNegativeZero (.member o op field t))) := by
  rw [expr]
  cases hitems : field == "items" && isDict o.typ with
  | true =>
    have hnone : leadingFloat? (.member o op field t) = none := by rw [leadingFloat?, if_pos hitems]
    exact (yields_expr ho).next fun text _ => .pure (unsigned_behind hnone (by decide) _).append
  | false =>
    rw [ledByNegativeZero_congr (e := o) (by rw [leadingFloat?, hitems]; rfl)]
    exact ih.next fun text htext => .pure htext.append.append

/-- The text of an expression begins with a minus sign exactly if it begins with a negative zero. The
induction goes down the left spine; all other parts stand behind a first character. -/
theorem signed_expr {e : Expr} (h : Spelled e) : Yields m n (expr m d e) (Signed (LedByNegativeZero e)) := by
  induction h with
  | int k => exact .pure (unsigned_intLiteral (not_ledByNegativeZero rfl) k)
  | float x =>
    have hled : LedByNegativeZero (.float x) = (Number.unpack x = .zero .negative) := by
      simp [LedByNegativeZero, leadingFloat?]
    rw [hled]
    exact .pure (signed_floatLiteral x)
  | str t =>
    refine .pure (unsigned (not_ledByNegativeZero rfl) ?_)
    rw [stringLiteral, String.toList_ofList]
    rfl
  | bool b =>
    refine .pure (unsigned (not_ledByNegativeZero rfl) ?_)
    cases b <;> decide
  | ref h => exact unsigned_entity (not_ledByNegativeZero rfl) h
  | @binary op l r t _ hl hr =>
    refine (yields_expr hl).next fun left _ => (yields_expr hr).next fun right _ => .pure ?_
    have hopen : Signed (LedByNegativeZero (.binary op l r t)) ("(" ++ left) := unsigned_behind rfl (by decide) _
    exact hopen.append.append.append.append.append
  | @unary op e t hop he =>
    have hopen : Signed (LedByNegativeZero (.unary op e t)) ("(" ++ op.text) := unsigned_behind rfl (by decide) _
    simp only [List.mem_cons, List.not_mem_nil, or_false] at hop
    rcases hop with rfl | rfl <;> exact (yields_expr he).next fun text _ => .pure hopen.append.append
  | call _ ha ihf iha => exact signed_call ha ihf iha
  | @construct c args hc ha =>
    refine (yields_exprs fun a hmem => yields_expr (ha a hmem)).next fun as _ =>
      (yields_name hc.word).next fun name _ => .pure ?_
    have hnew : Signed (LedByNegativeZero (.construct c args)) ("new " ++ name) :=
      unsigned_behind rfl (by decide) _
    exact hnew.append.append.append
  | member _ _ ho ih => exact signed_member ho ih
  | array hes | tuple hes =>
    exact (yields_exprs fun e he => yields_expr (hes e he)).next fun ts _ =>
      .pure (unsigned_behind rfl (by decide) _).append
  | dict hk hv =>
    exact (yields_entries (fun e he => yields_expr (hk e he)) fun e he => yields_expr (hv e he)).next fun ts _ =>
      .pure (unsigned_behind rfl (by decide) _).append
  | emptyArray | emptyOptional => exact .pure (unsigned (not_ledByNegativeZero rfl) (by decide))

end Expressions

end Snack.Script
