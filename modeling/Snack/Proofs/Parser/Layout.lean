import Mathlib.Data.List.GetD
import Snack.Parser.Stmt
import Snack.Proofs.Parser.Forward
import Snack.Proofs.Token.Changed
import Snack.Proofs.Tree.Moved

/-! What the places of tokens and the contents of string literals decide. Besides being noted in the tree and
in failures the places have a say in one point: a value belongs to a return only if it starts on the same
line. The contents have a say in one point too: where a statement is to start, a string literal passes for the
first word of one if it holds it. So if tokens are taken elsewhere and get other contents and keep that, the
tree and the place of a failure are taken along. -/

namespace Snack

namespace Parser

open Snack.Tree
open Token (Kind)

/-- How the failures of two parsers compare when `f` takes the tokens elsewhere. Where tokens are wanting there
is no place. -/
def Moved (f : Pos → Pos) (e d : Error) : Prop := d = if e.cause = .exhausted then e else e.move f

theorem Moved.eq {f : Pos → Pos} {e d : Error} (h : Moved f e d) (he : e.cause ≠ .exhausted) :
    d = e.move f := by
  rw [h, if_neg he]

theorem Moved.cause {f : Pos → Pos} {e d : Error} (h : Moved f e d) : e.cause = d.cause := by
  rw [h]
  split <;> rfl

/-- The second parser does what the first does, on tokens that `f` takes elsewhere with the contents that `g`
gives them. -/
abbrev Moves (S T : Error → Prop) (f : Pos → Pos) (g : String → String) {α β : Type} (R : α → β → Prop)
    (x : Parser α) (y : Parser β) : Prop :=
  AgreesUnless S T (Moved f) (Token.Becomes f g) R x y

section Tokens

variable {S T : Error → Prop} {f : Pos → Pos} {g : String → String} {α β : Type} {R : α → β → Prop}

/-! ### Single tokens -/

theorem moves_current : Moves S T f g (Image (Token.change f g)) current current := by
  refine Agrees.unless fun ts us h => ?_
  rcases h.front with ⟨rfl, rfl⟩ | ⟨t, ts, rfl, rfl⟩
  · exact rfl
  · exact ⟨h, rfl⟩

/-- The token in front is known. -/
theorem moves_front {x : Token → Parser α} {y : Token → Parser β}
    (h : ∀ t ts, Token.Becomes f g (t :: ts) (t.change f g :: ts.map (Token.change f g)) →
      BothUnless S T (Moved f) (Token.Becomes f g) R (x t (t :: ts))
        (y (t.change f g) (t.change f g :: ts.map (Token.change f g)))) :
    Moves S T f g R (current >>= x) (current >>= y) := by
  intro ts us hts
  rcases hts.front with ⟨rfl, rfl⟩ | ⟨t, ts, rfl, rfl⟩
  · exact bothUnless_error rfl
  · exact h t ts hts

theorem moves_peek (n : Nat) :
    Moves S T f g (fun t u => t.kind = u.kind ∧ (t.kind ≠ .string → t.text = u.text)) (peek n) (peek n) := by
  have hpeek (ts : List Token) : (ts.getD n (ts.getLastD default)).outline =
      (ts.map Token.outline).getD n ((ts.map Token.outline).getLastD (Token.outline default)) := by
    have hlast : (ts.map Token.outline).getLastD (Token.outline default) =
        Token.outline (ts.getLastD default) := by
      simp [List.getLastD_eq_getLast?]
    rw [hlast, List.getD_map]
  refine Agrees.unless fun ts us h => ?_
  refine ⟨h, ?_⟩
  have houtlines : us.map Token.outline = ts.map Token.outline := by
    rw [h.tokens, List.map_map]
    exact List.map_congr_left fun t _ => t.outline_change
  have heq := hpeek us
  rw [houtlines, ← hpeek ts] at heq
  exact Token.outline_eq heq.symm

theorem moves_advance : Moves S T f g (Image (Token.change f g)) advance advance := by
  refine Agrees.unless fun ts us h => ?_
  rcases h.front with ⟨rfl, rfl⟩ | ⟨t, ts, rfl, rfl⟩
  · exact rfl
  · refine ⟨?_, rfl⟩
    show Token.Becomes f g (if t.kind = .eof then _ else _) (if t.kind = .eof then _ else _)
    split
    · exact h
    · exact h.tail

theorem moves_left : Moves S T f g Eq left left := Agrees.unless fun _ _ h => ⟨h, h.length_eq⟩

theorem moves_failAt (p : Pos) {c : Cause} (hc : c ≠ .exhausted) :
    Moves S T f g R (failAt p c) (failAt (f p) c) :=
  Agrees.unless fun _ _ _ => (if_neg hc).symm

theorem moves_fail {c : Cause} (hc : c ≠ .exhausted) : Moves S T f g R (fail c) (fail c) :=
  moves_current.image fun _ => moves_failAt _ hc

/-- A failure does not tell the contents of a string literal. -/
theorem found_change (t : Token) : Found.ofToken (t.change f g) = .ofToken t := by
  obtain ⟨kind, text, pos⟩ := t
  cases kind <;> rfl

theorem moves_failFor (w : Wanted) : Moves S T f g R (failFor w) (failFor w) := by
  refine moves_current.image fun t => ?_
  rw [found_change]
  exact moves_failAt _ (by simp)

theorem moves_sees (s : String) : Moves S T f g Eq (sees s) (sees s) :=
  moves_current.image fun t => .pure (t.spells_change s).symm

theorem any_spells_change (texts : List String) (t : Token) :
    texts.any (t.change f g).spells = texts.any t.spells := by
  rw [show (t.change f g).spells = t.spells from funext t.spells_change]

theorem moves_seesAny (texts : List String) : Moves S T f g Eq (seesAny texts) (seesAny texts) :=
  moves_current.image fun t => .pure (any_spells_change texts t).symm

theorem moves_seesKind (k : Kind) : Moves S T f g Eq (seesKind k) (seesKind k) :=
  moves_current.image fun _ => .pure rfl

theorem moves_expect (s : String) : Moves S T f g (Image (Token.change f g)) (expect s) (expect s) :=
  (moves_sees s).next fun _ => .ite moves_advance (moves_failFor _)

/-- The tokens behind the one that is expected are still seen next to it. -/
theorem moves_expect_bind {s : String} {x : Token → Parser α} {y : Token → Parser β}
    (h : ∀ t ts, Token.Becomes f g (t :: ts) (t.change f g :: ts.map (Token.change f g)) →
      t.spells s = true →
      BothUnless S T (Moved f) (Token.Becomes f g) R (x t ts) (y (t.change f g) (ts.map (Token.change f g)))) :
    Moves S T f g R (expect s >>= x) (expect s >>= y) := by
  intro ts us hts
  rcases hts.front with ⟨rfl, rfl⟩ | ⟨t, ts, rfl, rfl⟩
  · exact bothUnless_error rfl
  by_cases ht : t.spells s = true
  · rw [bind_eq_of_ok (expect_eq ht),
      bind_eq_of_ok (expect_eq (c := t.change f g) (by rwa [Token.spells_change]))]
    exact h t ts hts ht
  · have hfail (v : Token) (vs : List Token) (hv : v.spells s = false) :
        expect s (v :: vs) = .error ⟨.expected (.text s) (.ofToken v), v.pos⟩ (v :: vs) :=
      skip_eq (.cons hv)
    have ht : t.spells s = false := Bool.eq_false_iff.2 ht
    rw [bind_eq_of_error (hfail t ts ht),
      bind_eq_of_error (hfail (t.change f g) (ts.map (Token.change f g)) (by rwa [Token.spells_change])),
      found_change]
    exact bothUnless_error rfl

/-- A name is no string literal. -/
theorem moves_expectIdent : Moves S T f g (Image (Token.move f)) expectIdent expectIdent := by
  have hread : Moves S T f g (Image (Token.change f g)) expectIdent expectIdent :=
    (moves_seesKind _).next fun _ => .ite moves_advance (moves_failFor _)
  refine hread.impOk fun t u ts ts' ht htu => ?_
  rw [htu]
  exact Token.change_of_ne (by simp [kind_of_expectIdent ht])

/-- What is spelled like one of the texts is no string literal. -/
theorem moves_takeAny {texts : List String} {k : Token → Parser α} {k' : Token → Parser β} {x : Parser α}
    {y : Parser β} (hk : ∀ t, Moves S T f g R (k t) (k' (t.move f))) (hxy : Moves S T f g R x y) :
    Moves S T f g R (seesAny texts >>= fun b => if b = true then advance >>= k else x)
      (seesAny texts >>= fun b => if b = true then advance >>= k' else y) := by
  intro ts us hts
  rcases hts.front with ⟨rfl, rfl⟩ | ⟨t, ts, rfl, rfl⟩
  · exact bothUnless_error rfl
  by_cases ht : texts.any t.spells = true
  · obtain ⟨s, hs, ht⟩ := List.any_eq_true.1 ht
    have ht' : (t.change f g).spells s = true := by rwa [Token.spells_change]
    rw [takeAny_eq hs ht, takeAny_eq hs ht', Token.change_of_ne (Token.spells_iff.1 ht).2.1]
    exact hk t ts _ hts.tail
  · have ht : ∀ s ∈ texts, t.spells s = false := by simpa using ht
    have ht' : ∀ s ∈ texts, (t.change f g).spells s = false := by simpa only [Token.spells_change] using ht
    rw [skipAny_eq (.cons ht), skipAny_eq (.cons ht')]
    exact hxy _ _ hts

/-! ### Repetition -/

variable {φ : α → β} {item : Parser α} {item' : Parser β}

theorem moves_moreItems (h : Moves S T f g (Image φ) item item') (n : Nat) :
    Moves S T f g (Image (List.map φ)) (moreItems item n) (moreItems item' n) := by
  induction n with
  | zero => exact .pure rfl
  | succ n ih =>
    refine (moves_sees _).next fun _ => .ite (moves_advance.image fun _ => ?_) (.pure rfl)
    exact h.image fun _ => ih.image fun _ => .pure rfl

theorem moves_items (h : Moves S T f g (Image φ) item item') :
    Moves S T f g (Image (List.map φ)) (items item) (items item') :=
  h.image fun _ => moves_left.next fun n => (moves_moreItems h n).image fun _ => .pure rfl

theorem moves_itemsUntil (close : String) (h : Moves S T f g (Image φ) item item') :
    Moves S T f g (Image (List.map φ)) (itemsUntil close item) (itemsUntil close item') :=
  (moves_sees _).next fun _ => .ite (.pure rfl) (moves_items h)

end Tokens

/-! ### Types -/

section Types

variable {S T : Error → Prop} {f : Pos → Pos} {g : String → String}

theorem moves_optionalMarks (p : Pos) (n : Nat) (t : TypeExpr) :
    Moves S T f g (Image (TypeExpr.move f)) (optionalMarks p n t) (optionalMarks (f p) n (t.move f)) := by
  induction n generalizing t with
  | zero => exact .pure rfl
  | succ n ih =>
    exact (moves_sees _).next fun _ => .ite (moves_advance.image fun _ => ih (.optional p t)) (.pure rfl)

theorem moves_typeWith {inner : Parser TypeExpr} (h : Moves S T f g (Image (TypeExpr.move f)) inner inner) :
    Moves S T f g (Image (TypeExpr.move f)) (typeWith inner) (typeWith inner) := by
  refine moves_current.image fun t => ?_
  have hmarks (a : TypeExpr) : Moves S T f g (Image (TypeExpr.move f))
      (left >>= fun n => optionalMarks t.pos n a)
      (left >>= fun n => optionalMarks (t.move f).pos n (a.move f)) :=
    moves_left.next fun n => moves_optionalMarks t.pos n a
  have hpure (a : TypeExpr) : Moves S T f g (Image (TypeExpr.move f)) (pure a) (pure (a.move f)) := .pure rfl
  refine (moves_sees _).next fun _ => (moves_sees _).next fun _ => .ite_iff Iff.rfl (fun hk => ?_) fun _ =>
    .ite ?_ (.ite ?_ (.ite_iff Iff.rfl (fun hk => ?_) fun _ => ?_))
  · rw [Token.change_of_ne (by simp [hk])]
    exact moves_advance.image fun _ => (hpure _).image hmarks
  · refine moves_advance.image fun _ => h.image fun _ => (moves_expect _).image fun _ => ?_
    exact (hpure _).image hmarks
  · refine moves_advance.image fun _ => h.image fun _ => (moves_expect _).image fun _ => ?_
    refine h.image fun _ => (moves_expect _).image fun _ => ?_
    exact (hpure _).image hmarks
  · rw [Token.change_of_ne (by simp [hk])]
    exact moves_advance.image fun _ => (hpure _).image hmarks
  · exact (moves_failFor _).image hmarks

theorem moves_typeWithin (n : Nat) :
    Moves S T f g (Image (TypeExpr.move f)) (typeWithin n) (typeWithin n) := by
  induction n with
  | zero => exact moves_failFor _
  | succ n ih => exact moves_typeWith ih

theorem moves_typeExpr : Moves S T f g (Image (TypeExpr.move f)) typeExpr typeExpr :=
  moves_left.next fun n => moves_typeWithin n

theorem moves_seesType : Moves S T f g Eq seesType seesType := by
  refine moves_current.image fun t => ?_
  rw [Token.spells_change, Token.spells_change]
  refine .ite (.pure rfl) (.ite (.pure rfl) ((moves_peek 1).bind fun v w hvw => .pure ?_))
  rw [← hvw.1]
  by_cases hk : v.kind = .op
  · rw [hvw.2 (by simp [hk])]
  · simp [hk]

end Types

/-! ### Expressions -/

section Expressions

variable {S T : Error → Prop} {f : Pos → Pos} {g : String → String} {inner operand : Parser Expr}

/-- An expression that stands where `f` takes it. -/
structure Follows (f : Pos → Pos) (g : String → String) (a b : Expr) : Prop where
  image : Image (Expr.change f g) a b
  pos : b.pos = f a.pos

theorem Follows.imp {x y : Parser Expr} (h : Moves S T f g (Follows f g) x y) :
    Moves S T f g (Image (Expr.change f g)) x y :=
  AgreesUnless.imp h fun _ _ hab => hab.image

theorem moves_seesExpr : Moves S T f g Eq seesExpr seesExpr := by
  refine moves_current.image fun t => .pure ?_
  obtain ⟨kind, text, pos⟩ := t
  cases kind <;> rfl

theorem moves_entries (h : Moves S T f g (Follows f g) inner inner) (n : Nat) :
    Moves S T f g (Image (changeEntries f g)) (entries inner n) (entries inner n) := by
  induction n with
  | zero => exact .pure rfl
  | succ n ih =>
    refine (moves_sees _).next fun _ => .ite (.pure rfl) ?_
    refine h.bind fun k k' hk => (moves_expect _).image fun _ => (Follows.imp h).image fun v => ?_
    obtain ⟨rfl, hp⟩ := hk
    refine (moves_sees _).next fun _ => .ite (moves_advance.image fun _ => ih.image fun es => .pure ?_)
      (.pure ?_)
    · rw [hp]
      rfl
    · rw [hp]
      rfl

theorem moves_dictLiteral (h : Moves S T f g (Follows f g) inner inner) :
    Moves S T f g (Follows f g) (dictLiteral inner) (dictLiteral inner) :=
  (moves_expect _).image fun _ => moves_left.next fun n => (moves_entries h n).image fun _ =>
    (moves_expect _).image fun _ => .pure ⟨rfl, rfl⟩

theorem moves_parenthesized (h : Moves S T f g (Follows f g) inner inner) (p : Pos) :
    Moves S T f g (Follows f g) (parenthesized inner p) (parenthesized inner (f p)) := by
  refine (Follows.imp h).image fun a => moves_left.next fun n => ?_
  refine (moves_moreItems (Follows.imp h) n).image fun as => (moves_expect _).image fun _ => .pure ?_
  cases as with
  | nil => exact ⟨rfl, rfl⟩
  | cons b bs =>
    refine ⟨?_, rfl⟩
    show Expr.tuple (f p) (a.change f g :: (b :: bs).map (Expr.change f g)) = _
    rw [← changeExprs_eq_map]
    rfl

theorem moves_bracketed (h : Moves S T f g (Follows f g) inner inner) (p : Pos) :
    Moves S T f g (Follows f g) (bracketed inner p) (bracketed inner (f p)) := by
  refine (moves_seesKind _).next fun _ => .ite ?_ ?_
  · exact moves_typeExpr.image fun _ => (moves_expect _).image fun _ => .pure ⟨rfl, rfl⟩
  · refine (moves_itemsUntil _ (Follows.imp h)).image fun es => (moves_expect _).image fun _ => .pure ⟨?_, rfl⟩
    rw [← changeExprs_eq_map]
    rfl

theorem moves_primaryWith (h : Moves S T f g (Follows f g) inner inner) :
    Moves S T f g (Follows f g) (primaryWith inner) (primaryWith inner) := by
  refine moves_current.image fun t => ?_
  obtain ⟨kind, text, pos⟩ := t
  cases kind
  case number => exact moves_advance.image fun _ => .pure ⟨rfl, rfl⟩
  case string => exact moves_advance.image fun _ => .pure ⟨rfl, rfl⟩
  case ident => exact moves_advance.image fun _ => .pure ⟨rfl, rfl⟩
  all_goals
    refine (moves_seesAny _).next fun _ => .ite (moves_advance.image fun _ => .pure ⟨rfl, rfl⟩) ?_
    refine (moves_sees _).next fun _ => .ite (moves_advance.image fun _ => ?_) ?_
    · exact moves_typeExpr.image fun _ => .pure ⟨rfl, rfl⟩
    refine (moves_sees _).next fun _ => .ite (moves_advance.image fun _ => moves_parenthesized h _) ?_
    refine (moves_sees _).next fun _ => .ite (moves_advance.image fun _ => moves_bracketed h _) ?_
    exact (moves_sees _).next fun _ => .ite (moves_dictLiteral h) (moves_failFor _)

theorem moves_postfixTail (h : Moves S T f g (Follows f g) inner inner) (n : Nat) {e e' : Expr}
    (he : Follows f g e e') : Moves S T f g (Follows f g) (postfixTail inner n e) (postfixTail inner n e') := by
  induction n generalizing e e' with
  | zero => exact .pure he
  | succ n ih =>
    refine moves_takeAny (fun op => ?_) ?_
    · refine moves_expectIdent.image fun x => ih ⟨?_, he.pos⟩
      rw [Image, he.pos, he.image]
      rfl
    refine (moves_sees _).next fun _ => .ite (moves_advance.image fun _ => ?_) (.pure he)
    refine (moves_itemsUntil _ (Follows.imp h)).image fun as => (moves_expect _).image fun _ =>
      ih ⟨?_, he.pos⟩
    rw [Image, he.pos, he.image, ← changeExprs_eq_map]
    rfl

theorem moves_postfixWith (h : Moves S T f g (Follows f g) inner inner) :
    Moves S T f g (Follows f g) (postfixWith inner) (postfixWith inner) :=
  (moves_primaryWith h).bind fun _ _ he => moves_left.next fun n => moves_postfixTail h n he

/-- An operation is taken along with its left operand. -/
theorem follows_binary {l l' r : Expr} (op : BinaryOp) (hl : Follows f g l l') :
    Follows f g (binary l op r) (binary l' op (r.change f g)) := by
  refine ⟨?_, hl.pos⟩
  rw [Image, binary, hl.pos, hl.image]
  rfl

theorem moves_powerOf {unary : Parser Expr} (ho : Moves S T f g (Follows f g) operand operand)
    (hu : Moves S T f g (Follows f g) unary unary) :
    Moves S T f g (Follows f g) (powerOf operand unary) (powerOf operand unary) := by
  refine ho.bind fun l l' hl => (moves_sees _).next fun _ => .ite ?_ (.pure hl)
  exact moves_advance.image fun _ => (Follows.imp hu).image fun _ => .pure (follows_binary _ hl)

theorem moves_unaryWithin (h : Moves S T f g (Follows f g) operand operand) (n : Nat) :
    Moves S T f g (Follows f g) (unaryWithin operand n) (unaryWithin operand n) := by
  induction n with
  | zero => exact moves_failFor _
  | succ n ih =>
    refine moves_takeAny (fun t => ?_) (moves_powerOf h ih)
    exact (Follows.imp ih).image fun _ => .pure ⟨rfl, rfl⟩

theorem moves_unaryWith (h : Moves S T f g (Follows f g) inner inner) :
    Moves S T f g (Follows f g) (unaryWith inner) (unaryWith inner) :=
  moves_left.next fun n => moves_unaryWithin (moves_postfixWith h) n

theorem moves_chain (ops : List String) (h : Moves S T f g (Follows f g) operand operand) (n : Nat)
    {e e' : Expr} (he : Follows f g e e') :
    Moves S T f g (Follows f g) (chain ops operand n e) (chain ops operand n e') := by
  induction n generalizing e e' with
  | zero => exact .pure he
  | succ n ih =>
    refine moves_takeAny (fun t => ?_) (.pure he)
    exact (Follows.imp h).image fun _ => ih (follows_binary _ he)

theorem moves_leftAssoc (ops : List String) (h : Moves S T f g (Follows f g) operand operand) :
    Moves S T f g (Follows f g) (leftAssoc ops operand) (leftAssoc ops operand) :=
  h.bind fun _ _ he => moves_left.next fun n => moves_chain ops h n he

theorem moves_compareWith (h : Moves S T f g (Follows f g) inner inner) :
    Moves S T f g (Follows f g) (compareWith inner) (compareWith inner) := by
  have hsum : Moves S T f g (Follows f g) (sumWith inner) (sumWith inner) :=
    moves_leftAssoc _ (moves_leftAssoc _ (moves_unaryWith h))
  refine hsum.bind fun l l' hl => moves_current.image fun t => ?_
  by_cases hk : t.kind = .string
  · have hk' : (t.change f g).kind = .string := hk
    simp only [hk, hk', reduceCtorEq, decide_false, Bool.false_and, Bool.false_eq_true, if_false]
    exact .pure hl
  rw [Token.change_of_ne hk]
  refine .ite (moves_advance.image fun _ => ?_) (.pure hl)
  exact (Follows.imp hsum).image fun _ => .pure (follows_binary _ hl)

theorem moves_coalesceWithin (h : Moves S T f g (Follows f g) operand operand) (n : Nat) :
    Moves S T f g (Follows f g) (coalesceWithin operand n) (coalesceWithin operand n) := by
  induction n with
  | zero => exact moves_failFor _
  | succ n ih =>
    refine h.bind fun l l' hl => (moves_sees _).next fun _ => .ite ?_ (.pure hl)
    exact moves_advance.image fun _ => (Follows.imp ih).image fun _ => .pure (follows_binary _ hl)

theorem moves_exprWith (h : Moves S T f g (Follows f g) inner inner) :
    Moves S T f g (Follows f g) (exprWith inner) (exprWith inner) :=
  moves_left.next fun n =>
    moves_coalesceWithin (moves_leftAssoc _ (moves_leftAssoc _ (moves_compareWith h))) n

theorem moves_exprWithin (n : Nat) : Moves S T f g (Follows f g) (exprWithin n) (exprWithin n) := by
  induction n with
  | zero => exact moves_failFor _
  | succ n ih => exact moves_exprWith ih

theorem follows_expr : Moves S T f g (Follows f g) expr expr := moves_left.next fun n => moves_exprWithin n

theorem moves_expr : Moves S T f g (Image (Expr.change f g)) expr expr := Follows.imp follows_expr

end Expressions

/-! ### Statements -/

section Statements

variable {S T : Error → Prop} {f : Pos → Pos} {g : String → String} {block : Parser (List Stmt)}
variable {α β : Type} {φ : α → β}

theorem moves_typeIfAny : Moves S T f g (Image (Option.map (TypeExpr.move f))) typeIfAny typeIfAny :=
  moves_seesType.next fun _ => .ite (moves_typeExpr.image fun _ => .pure rfl) (.pure rfl)

theorem moves_behind (s : String) {x : Parser α} {y : Parser β} (h : Moves S T f g (Image φ) x y) :
    Moves S T f g (Image (Option.map φ)) (behind s x) (behind s y) :=
  (moves_sees s).next fun _ => .ite (moves_advance.image fun _ => h.image fun _ => .pure rfl) (.pure rfl)

theorem moves_param : Moves S T f g (Image (Param.move f)) param param :=
  moves_current.image fun _ => moves_typeIfAny.image fun _ => moves_expectIdent.image fun _ => .pure rfl

theorem moves_paramsInParens : Moves S T f g (Image (List.map (Param.move f))) paramsInParens paramsInParens :=
  (moves_itemsUntil _ moves_param).image fun _ => (moves_expect _).image fun _ => .pure rfl

theorem moves_checkTarget {e e' : Expr} (h : Follows f g e e') :
    Moves S T f g Eq (checkTarget e) (checkTarget e') := by
  obtain ⟨rfl, hp⟩ := h
  have hfail : Moves S T f g (@Eq Unit) (failAt e.pos .invalidTarget)
      (failAt (e.change f g).pos .invalidTarget) := by
    rw [hp]
    exact moves_failAt _ (by simp)
  cases e with
  | var | member => exact .pure rfl
  | call p callee args => cases args <;> exact hfail
  | _ => exact hfail

theorem moves_varDecl : Moves S T f g (Image (Stmt.change f g)) varDecl varDecl :=
  (moves_expect _).image fun _ => moves_typeIfAny.image fun _ => moves_expectIdent.image fun _ =>
    (moves_behind _ moves_expr).image fun _ => .pure rfl

/-- No declaration starts with a string literal, whatever it holds. -/
def refusal (p : Pos) : Error := ⟨.expected (.text Keyword.var.text) .stringLiteral, p⟩

theorem varDecl_refuses {t : Token} {ts : List Token} (ht : t.kind = .string) :
    varDecl (t :: ts) = .error (refusal t.pos) (t :: ts) := by
  have hspells : t.spells Keyword.var.text = false := by simp [Token.spells, ht]
  have hfail : expect Keyword.var.text (t :: ts) = .error _ (t :: ts) := skip_eq (.cons hspells)
  rw [varDecl, bind_eq_of_error hfail, refusal, Found.ofToken, ht]

theorem moves_collection : Moves S T f g (Image (Stmt.change f g)) collection collection := by
  refine (moves_expect _).image fun _ => moves_expectIdent.image fun _ => (moves_expect _).image fun _ => ?_
  refine (moves_seesAny _).next fun _ => .ite ?_ (moves_failFor _)
  exact (Follows.imp (moves_primaryWith follows_expr)).image fun _ => .pure rfl

theorem moves_print : Moves S T f g (Image (Stmt.change f g)) print print := by
  refine (moves_expect _).image fun _ => (moves_items moves_expr).image fun es => .pure ?_
  rw [← changeExprs_eq_map]
  rfl

/-- The one point where the layout decides. -/
theorem moves_ret : Moves S T f g (Image (Stmt.change f g)) ret ret := by
  refine moves_expect_bind fun t ts h ht => ?_
  cases ts with
  | nil => exact bothUnless_error rfl
  | cons t' ts =>
    have hvalue {c d : Bool} (hcd : c = d) : Moves S T f g (Image (Stmt.change f g))
        (seesExpr >>= fun b => if (c && b) = true then expr >>= fun e => pure (.ret t.pos (some e))
          else pure (.ret t.pos none))
        (seesExpr >>= fun b => if (d && b) = true then expr >>= fun e => pure (.ret (f t.pos) (some e))
          else pure (.ret (f t.pos) none)) := by
      subst hcd
      refine moves_seesExpr.next fun b => .ite ?_ (.pure rfl)
      exact moves_expr.image fun _ => .pure rfl
    exact hvalue (decide_eq_decide.2 (h.inline ht)) (t' :: ts) _ h.tail

theorem moves_exprStmt : Moves S T f g (Image (Stmt.change f g)) exprStmt exprStmt := by
  refine moves_current.image fun t => moves_seesExpr.next fun _ => .ite (moves_failFor _).stop ?_
  refine follows_expr.bind fun e e' he => moves_takeAny (fun op => ?_) ?_
  · refine (moves_checkTarget he).next fun _ => ?_
    refine moves_expr.image fun v => .pure ?_
    rw [he.image]
    show (if op.text == "=" then _ else _) = Stmt.change f g (if op.text == "=" then _ else _)
    split <;> rfl
  refine moves_takeAny (fun op => ?_) ?_
  · refine (moves_checkTarget he).next fun _ => .pure ?_
    rw [he.image]
    rfl
  obtain ⟨rfl, -⟩ := he
  cases e with
  | call p callee args => cases args <;> exact .pure rfl
  | _ => exact moves_failAt _ (by simp)

/-- What new contents do where a statement is to start: a string literal passes for the same first word as
before, or it holds the word of a declaration and is refused, before the change or after it. -/
def Passes (S T : Error → Prop) (g : String → String) : Prop :=
  ∀ s, (∀ k ∈ Keyword.heads, s = k.text ↔ g s = k.text) ∨
    (s = Keyword.var.text ∧ ∀ p, S (refusal p)) ∨ (g s = Keyword.var.text ∧ ∀ p, T (refusal p))

theorem Passes.token (hg : Passes S T g) (t : Token) :
    (∀ k ∈ Keyword.heads, t.text = k.text ↔ (t.change f g).text = k.text) ∨
      (t.kind = .string ∧ t.text = Keyword.var.text ∧ ∀ p, S (refusal p)) ∨
      (t.kind = .string ∧ (t.change f g).text = Keyword.var.text ∧ ∀ p, T (refusal p)) := by
  by_cases hk : t.kind = .string
  · have htext : (t.change f g).text = g t.text := if_pos hk
    rw [htext]
    rcases hg t.text with hhead | hS | hT
    · exact .inl hhead
    · exact .inr (.inl ⟨hk, hS⟩)
    · exact .inr (.inr ⟨hk, hT⟩)
  · rw [Token.change_of_ne hk]
    exact .inl fun _ _ => Iff.rfl

section Blocks

variable (hb : Moves S T f g (Image (changeBlock f g)) block block)

include hb

theorem moves_elseIfs (n : Nat) :
    Moves S T f g (Image (changeClauses f g)) (elseIfs block n) (elseIfs block n) := by
  induction n with
  | zero => exact .pure rfl
  | succ n ih =>
    refine (moves_sees _).next fun _ => .ite (moves_advance.image fun _ => ?_) (.pure rfl)
    exact moves_expr.image fun _ => hb.image fun _ => ih.image fun _ => .pure rfl

theorem moves_function : Moves S T f g (Image (Stmt.change f g)) (function block) (function block) :=
  (moves_expect _).image fun _ => moves_expectIdent.image fun _ =>
    (moves_behind _ moves_paramsInParens).image fun _ => (moves_behind _ moves_typeExpr).image fun _ =>
      hb.image fun _ => .pure rfl

theorem moves_classDecl : Moves S T f g (Image (Stmt.change f g)) (classDecl block) (classDecl block) :=
  (moves_expect _).image fun _ => moves_expectIdent.image fun _ => hb.image fun _ => .pure rfl

theorem moves_ifChain : Moves S T f g (Image (Stmt.change f g)) (ifChain block) (ifChain block) := by
  refine (moves_expect _).image fun _ => moves_expr.image fun _ => hb.image fun _ => ?_
  refine moves_left.next fun n => (moves_elseIfs hb n).image fun _ =>
    (moves_behind _ hb).image fun _ => .pure ?_
  rw [Image, Stmt.change_ifChain]
  rfl

theorem moves_whileLoop : Moves S T f g (Image (Stmt.change f g)) (whileLoop block) (whileLoop block) :=
  (moves_expect _).image fun _ => moves_expr.image fun _ => hb.image fun _ => .pure rfl

theorem moves_forLoop : Moves S T f g (Image (Stmt.change f g)) (forLoop block) (forLoop block) := by
  have hname : Moves S T f g (Image id) (expectIdent >>= fun t => pure t.text)
      (expectIdent >>= fun t => pure t.text) :=
    moves_expectIdent.image fun _ => .pure rfl
  have hnames := AgreesUnless.imp (moves_items hname) fun as bs (h : bs = as.map id) => by
    simpa using h.symm
  refine (moves_expect _).image fun _ => hnames.next fun names => (moves_expect _).image fun _ => ?_
  refine moves_expr.image fun _ => moves_current.image fun t => ?_
  by_cases hk : t.kind = .string
  · have hk' : (t.change f g).kind = .string := hk
    simp only [hk, hk', reduceCtorEq, decide_false, Bool.and_false, Bool.false_eq_true, if_false]
    exact hb.image fun _ => .pure rfl
  rw [Token.change_of_ne hk]
  refine .ite ?_ (hb.image fun _ => .pure rfl)
  split
  · exact moves_advance.image fun _ => moves_expr.image fun _ => hb.image fun _ => .pure rfl
  · exact moves_fail (by simp)

/-- The one point where the contents of a string literal decide. -/
theorem moves_stmtWith (hg : Passes S T g) :
    Moves S T f g (Image (Stmt.change f g)) (stmtWith block) (stmtWith block) := by
  refine moves_front fun t ts h => ?_
  rcases hg.token (f := f) t with hhead | ⟨hk, hword, hS⟩ | ⟨hk, hword, hT⟩
  · refine (show Moves S T f g (Image (Stmt.change f g)) _ _ from ?_) (t :: ts) _ h
    refine .ite_iff (hhead _ (by decide)) (fun _ => moves_varDecl) fun _ => ?_
    refine .ite_iff (hhead _ (by decide)) (fun _ => moves_collection) fun _ => ?_
    refine .ite_iff (hhead _ (by decide)) (fun _ => moves_function hb) fun _ => ?_
    refine .ite_iff (hhead _ (by decide)) (fun _ => moves_classDecl hb) fun _ => ?_
    refine .ite_iff (hhead _ (by decide)) (fun _ => moves_ifChain hb) fun _ => ?_
    refine .ite_iff (hhead _ (by decide)) (fun _ => moves_whileLoop hb) fun _ => ?_
    refine .ite_iff (hhead _ (by decide)) (fun _ => moves_forLoop hb) fun _ => ?_
    refine .ite_iff (hhead _ (by decide)) (fun _ => moves_print) fun _ => ?_
    refine .ite_iff (hhead _ (by decide)) (fun _ => moves_ret) fun _ => ?_
    refine .ite_iff (hhead _ (by decide)) (fun _ => ?_) fun _ => moves_exprStmt
    exact moves_advance.image fun _ => .pure rfl
  · left
    rw [if_pos hword, varDecl_refuses hk]
    exact hS t.pos
  · right
    left
    rw [if_pos hword, varDecl_refuses (t := t.change f g) hk]
    exact hT _

end Blocks

theorem moves_stmtsUntilClose {stmt : Parser Stmt} (h : Moves S T f g (Image (Stmt.change f g)) stmt stmt)
    (n : Nat) : Moves S T f g (Image (changeBlock f g)) (stmtsUntilClose stmt n) (stmtsUntilClose stmt n) := by
  induction n with
  | zero => exact moves_fail (by simp)
  | succ n ih =>
    refine (moves_sees _).next fun _ => .ite (.pure rfl) ((moves_seesKind _).next fun _ => .ite ?_ ?_)
    · exact (moves_fail (by simp)).stop
    · exact h.image fun _ => ih.image fun _ => .pure rfl

theorem moves_blockWith {stmt : Parser Stmt} (h : Moves S T f g (Image (Stmt.change f g)) stmt stmt) :
    Moves S T f g (Image (changeBlock f g)) (blockWith stmt) (blockWith stmt) :=
  (moves_expect _).image fun _ => moves_left.next fun n =>
    (moves_stmtsUntilClose h n).image fun _ => (moves_expect _).image fun _ => .pure rfl

section Programs

theorem run_of_stops {ts : List Token} (h : Stops S (program ts)) : ∃ e, run ts = .error e ∧ S e := by
  unfold run
  cases hts : program ts with
  | ok A ts' =>
    rw [hts] at h
    exact h.elim
  | error e ts' =>
    rw [hts] at h
    exact ⟨e, rfl, h⟩

variable (hg : Passes S T g)

include hg

theorem moves_blockWithin (n : Nat) :
    Moves S T f g (Image (changeBlock f g)) (blockWithin n) (blockWithin n) := by
  induction n with
  | zero => exact moves_fail (by simp)
  | succ n ih => exact moves_blockWith (moves_stmtWith ih hg)

theorem moves_stmt : Moves S T f g (Image (Stmt.change f g)) stmt stmt :=
  moves_stmtWith (moves_left.next fun n => moves_blockWithin hg n) hg

theorem moves_stmtsUntilEnd (n : Nat) :
    Moves S T f g (Image (changeBlock f g)) (stmtsUntilEnd n) (stmtsUntilEnd n) := by
  induction n with
  | zero => exact .pure rfl
  | succ n ih =>
    refine (moves_seesKind _).next fun _ => .ite (.pure rfl) ?_
    exact (moves_stmt hg).image fun _ => ih.image fun _ => .pure rfl

/-- Tokens that are taken elsewhere with other contents are read into the tree that is taken along with these
contents, or fail for the same cause where the place of the first failure is taken to, unless a string literal
is refused. -/
theorem changed_run_unless {ts us : List Token} (h : Token.Becomes f g ts us) :
    (∃ e, run ts = .error e ∧ S e) ∨ (∃ e, run us = .error e ∧ T e) ∨
      Parallel (Moved f) (Image (changeBlock f g)) (run ts) (run us) := by
  have hprogram : Moves S T f g (Image (changeBlock f g)) program program :=
    moves_left.next fun n => moves_stmtsUntilEnd hg n
  rcases hprogram ts us h with hS | hT | hboth
  · exact .inl (run_of_stops hS)
  · exact .inr (.inl (run_of_stops hT))
  · right
    right
    unfold run
    cases hts : program ts <;> cases hus : program us <;> rw [hts, hus] at hboth
    · exact hboth.2
    · exact hboth.elim
    · exact hboth.elim
    · exact hboth

end Programs

end Statements

/-- If the new contents are the first word of a statement just where the old ones are, nothing is refused. -/
theorem changed_run {f : Pos → Pos} {g : String → String} (hg : Keyword.KeepsHeads g) {ts us : List Token}
    (h : Token.Becomes f g ts us) : Parallel (Moved f) (Image (changeBlock f g)) (run ts) (run us) := by
  have hpasses : Passes (fun _ => False) (fun _ => False) g := fun s => .inl fun k hk => (hg k hk s).symm
  rcases changed_run_unless hpasses h with ⟨_, -, hfalse⟩ | ⟨_, -, hfalse⟩ | hsame
  · exact hfalse.elim
  · exact hfalse.elim
  · exact hsame

/-- Tokens that are taken elsewhere are read into the tree that is taken along. -/
theorem moved_run {f : Pos → Pos} {ts us : List Token} (h : Token.MovesTo f ts us) :
    Parallel (Moved f) (Image (moveBlock f)) (run ts) (run us) := by
  exact changed_run (fun _ _ _ => Iff.rfl) h.becomes

/-- Tokens that look alike are read into trees that are the same but for places, or fail for the same
cause. -/
theorem same_run {ts us : List Token} (h : Token.Alike ts us) :
    Same (bareBlock <$> run ts) (bareBlock <$> run us) := by
  have hts := moved_run (Token.Alike.movesTo ⟨rfl, rfl⟩ : Token.MovesTo (Token.placeIn ts) _ ts)
  rcases hts.cases with ⟨a, b, ha, hb, hab⟩ | ⟨e, d, he, hd, hed⟩
  · rcases (moved_run h.movesTo).cases with ⟨a', c, ha', hc, hac⟩ | ⟨e, d, he, -, -⟩
    · obtain rfl : a = a' := Except.ok.inj (ha.symm.trans ha')
      rw [hb, hc, show b = _ from hab, show c = _ from hac]
      show Same (.ok (bareBlock _)) (.ok (bareBlock _))
      rw [bare_moveBlock, bare_moveBlock]
      rfl
    · cases ha.symm.trans he
  · rcases (moved_run h.movesTo).cases with ⟨a, b, ha, -, -⟩ | ⟨e', d', he', hd', hed'⟩
    · cases he.symm.trans ha
    · obtain rfl : e = e' := Except.error.inj (he.symm.trans he')
      rw [hd, hd']
      exact congrArg Except.error (hed.cause.symm.trans hed'.cause)

end Parser

end Snack
