import Snack.Proofs.Parser.Layout
import Snack.Proofs.Parser.Seam
import Snack.Proofs.Parser.Spans
import Snack.Proofs.Token.Joined

/-! Programs that are put together at a line break. Every parser is followed over the seam, and what it reads
before it is the same as before the end. There is one exception: a variable that is declared with its name
alone takes a name that comes next for its own, and its own name for a type. -/

namespace Snack

/-- A variable that is declared with its name alone. -/
def Tree.Stmt.Bare (s : Tree.Stmt) : Prop := ∃ p x, s = .varDecl p none x none

namespace Parser

open Snack.Tree

/-! ### Lists -/

section Lists

variable {σ : Seam} {α : Type} {P : Prop} {item item' : Parser α} {n : Nat}

theorem carries_itemTurn {again again' : Parser (List α)} (h : Carries σ n item item' fun _ => P)
    (hagain : Carries σ n again again' fun _ => P) :
    Carries σ (n + 1) (itemTurn item again) (itemTurn item' again') fun _ => P := by
  refine .take (by decide) (fun _ => ?_) (.pure [])
  exact h.bind (fun _ => hagain.bind (fun _ => .pure _) fun _ _ _ _ hP => hP) fun _ _ _ _ hP => hP

theorem carries_moreItems (h : Carries σ n item item' fun _ => P) :
    Carries σ n (left >>= moreItems item) (left >>= moreItems item') fun _ => P :=
  .bounded (fun _ hk _ _ => carries_itemTurn (h.mono (Nat.le_of_lt hk))) (fun _ => rfl) fun _ => rfl

theorem carries_items (h : Carries σ n item item' fun _ => P) :
    Carries σ n (items item) (items item') fun _ => P := by
  refine h.bind (fun _ => ?_) fun _ _ _ _ hP => hP
  exact (carries_moreItems h).bind (fun _ => .pure _) fun _ _ _ _ hP => hP

theorem carries_itemsUntil {close : String} (hclose : Token.Continues close)
    (h : Carries σ n item item' fun _ => P) :
    Carries σ n (itemsUntil close item) (itemsUntil close item') fun _ => P :=
  .look (Seam.same_sees hclose) fun _ => .ite (.pure []) (carries_items h)

end Lists

/-! ### Types -/

section Types

variable {σ : Seam} {n : Nat} {inner inner' : Parser TypeExpr}

theorem carries_markTurn {p : Pos} {again again' : TypeExpr → Parser TypeExpr}
    (hagain : CarriesOn σ n again again') : CarriesOn σ (n + 1) (markTurn p again) (markTurn p again') :=
  fun type => .take (by decide) (fun _ => hagain _) (.pure type)

theorem carries_optionalMarks (p : Pos) :
    CarriesOn σ n (fun type => left >>= fun m => optionalMarks p m type)
      fun type => left >>= fun m => optionalMarks p m type :=
  .bounded (fun _ _ _ _ => carries_markTurn) (fun _ => rfl) fun _ => rfl

theorem carries_typeWith (h : Carries σ n inner inner' fun _ => True) :
    Carries σ (n + 1) (typeWith inner) (typeWith inner') fun _ => True := by
  refine .current (fun _ type us h => ?_) fun t => .sees (.sees ?_)
  · cases h
  have hmarks : ∀ {k} (base : TypeExpr),
      Carries σ k (pure base >>= fun base => left >>= fun n => optionalMarks t.pos n base)
      (pure base >>= fun base => left >>= fun n => optionalMarks t.pos n base) fun _ => True := fun base =>
    carries_optionalMarks t.pos base
  refine .ite (.advance (hmarks _)) (.ite (.advance ?_) (.ite (.advance ?_) (.ite (.advance (hmarks _)) ?_)))
  · exact h.closed fun _ _ => hmarks _
  · exact h.closed fun _ _ => h.closed fun _ _ => hmarks _
  · exact (Carries.never fun ts _ _ h => by cases ts <;> cases h).from t

theorem carries_typeExpr : Carries σ n typeExpr typeExpr fun _ => True :=
  .bounded (fun _ _ _ _ => carries_typeWith) (fun _ => rfl) fun _ => rfl

end Types

/-! ### Expressions -/

section Expressions

variable {σ : Seam} {n : Nat} {inner inner' operand operand' again again' : Parser Expr}

theorem carries_entryTurn {again again' : Parser (List Entry)}
    (h : Carries σ (n + 1) inner inner' fun _ => True) (hagain : Carries σ n again again' fun _ => True) :
    Carries σ (n + 1) (entryTurn inner again) (entryTurn inner' again') fun _ => True := by
  refine .look (Seam.same_sees (by decide)) fun _ => .ite (.pure []) ?_
  refine h.next fun key => .expect fun _ _ => h.weaken.next fun value => ?_
  exact .weaken (.take (by decide) (fun _ => hagain.last) (.pure _))

theorem carries_dictLiteral (h : Carries σ n inner inner' fun _ => True) :
    Carries σ (n + 1) (dictLiteral inner) (dictLiteral inner') fun _ => True := by
  refine .expect fun t _ => ?_
  have hentries : Carries σ n (left >>= entries inner) (left >>= entries inner') fun _ => True :=
    .bounded (fun _ hk _ _ => carries_entryTurn (h.mono hk)) (fun _ => rfl) fun _ => rfl
  exact hentries.closed fun _ _ => .pure _

theorem carries_parenthesized (p : Pos) (h : Carries σ n inner inner' fun _ => True) :
    Carries σ n (parenthesized inner p) (parenthesized inner' p) fun _ => True :=
  h.next fun _ => (carries_moreItems h).closed fun _ _ => .pure _

theorem carries_bracketed (p : Pos) (h : Carries σ n inner inner' fun _ => True) :
    Carries σ n (bracketed inner p) (bracketed inner' p) fun _ => True := by
  refine .look (Seam.same_seesKind (by decide) (by decide) (by decide)) fun _ => .ite ?_ ?_
  · exact carries_typeExpr.closed fun _ _ => .pure _
  · exact (carries_itemsUntil (by decide) h).closed fun _ _ => .pure _

theorem carries_primaryWith (h : Carries σ n inner inner' fun _ => True) :
    Carries σ (n + 1) (primaryWith inner) (primaryWith inner') fun _ => True := by
  refine .current (fun _ e us h => ?_) fun t => ?_
  · cases h
  split
  · exact .advance (.pure _)
  · exact .advance (.pure _)
  · exact .advance (.pure _)
  refine .seesAny (.ite (.advance (.pure _)) (.sees (.ite (.advance carries_typeExpr.last) (.sees (.ite ?_
    (.sees (.ite ?_ (.sees (.ite ?_ ?_)))))))))
  · exact .advance (carries_parenthesized t.pos h)
  · exact .advance (carries_bracketed t.pos h)
  · exact (carries_dictLiteral h).from t
  · exact (carries_failFor _).from t

theorem carries_suffixTurn {again again' : Expr → Parser Expr} (h : Carries σ n inner inner' fun _ => True)
    (hagain : CarriesOn σ n again again') :
    CarriesOn σ (n + 1) (suffixTurn inner again) (suffixTurn inner' again') := by
  refine fun e => .takeAny (by decide) (fun _ => .weaken (.ident fun _ => hagain _)) ?_
  refine .take (by decide) (fun _ => ?_) (.pure e)
  exact (carries_itemsUntil (by decide) h).closed fun _ _ => hagain _

theorem carries_postfixWith (h : Carries σ n inner inner' fun _ => True) :
    Carries σ (n + 1) (postfixWith inner) (postfixWith inner') fun _ => True := by
  refine (carries_primaryWith h).next ?_
  exact CarriesOn.bounded (fun _ hk _ _ => carries_suffixTurn (h.mono (Nat.le_of_lt_succ hk))) (fun _ => rfl)
    fun _ => rfl

theorem carries_powerOf (h : Carries σ (n + 1) operand operand' fun _ => True)
    (hagain : Carries σ n again again' fun _ => True) :
    Carries σ (n + 1) (powerOf operand again) (powerOf operand' again') fun _ => True :=
  h.next fun e => .take (by decide) (fun _ => hagain.last) (.pure e)

theorem carries_unaryTurn (h : Carries σ (n + 1) operand operand' fun _ => True)
    (hagain : Carries σ n again again' fun _ => True) :
    Carries σ (n + 1) (unaryTurn operand again) (unaryTurn operand' again') fun _ => True :=
  .takeAny (by decide) (fun _ => hagain.last) (carries_powerOf h hagain)

theorem carries_unaryWith (h : Carries σ n inner inner' fun _ => True) :
    Carries σ (n + 1) (unaryWith inner) (unaryWith inner') fun _ => True :=
  .bounded (fun _ hk _ _ => carries_unaryTurn ((carries_postfixWith h).mono hk)) (fun _ => rfl) fun _ => rfl

theorem carries_chainTurn {ops : List String} (hops : ∀ s ∈ ops, Token.Continues s)
    {again again' : Expr → Parser Expr} (h : Carries σ n operand operand' fun _ => True)
    (hagain : CarriesOn σ n again again') :
    CarriesOn σ (n + 1) (chainTurn ops operand again) (chainTurn ops operand' again') :=
  fun e => .takeAny hops (fun _ => h.next fun _ => hagain _) (.pure e)

theorem carries_leftAssoc {ops : List String} (hops : ∀ s ∈ ops, Token.Continues s)
    (h : Carries σ n operand operand' fun _ => True) :
    Carries σ n (leftAssoc ops operand) (leftAssoc ops operand') fun _ => True :=
  h.next (CarriesOn.bounded (fun _ hk _ _ => carries_chainTurn hops (h.mono (Nat.le_of_lt hk)))
    (fun _ => rfl) fun _ => rfl)

theorem carries_sumWith (h : Carries σ n inner inner' fun _ => True) :
    Carries σ (n + 1) (sumWith inner) (sumWith inner') fun _ => True :=
  carries_leftAssoc (by decide) (carries_leftAssoc (by decide) (carries_unaryWith h))

theorem carries_compareWith (h : Carries σ n inner inner' fun _ => True) :
    Carries σ (n + 1) (compareWith inner) (compareWith inner') fun _ => True := by
  refine (carries_sumWith h).next fun e => .current (fun _ => ?_) fun t => ?_
  · rw [Seam.decide_op_next, Bool.false_and, if_neg Bool.false_ne_true]
    exact .pure e
  · exact .ite (.advance (carries_sumWith h).weaken.last) ((Carries.pure e).from t)

theorem carries_orWith (h : Carries σ n inner inner' fun _ => True) :
    Carries σ (n + 1) (orWith inner) (orWith inner') fun _ => True :=
  carries_leftAssoc (by decide) (carries_leftAssoc (by decide) (carries_compareWith h))

theorem carries_coalesceTurn (h : Carries σ (n + 1) operand operand' fun _ => True)
    (hagain : Carries σ n again again' fun _ => True) :
    Carries σ (n + 1) (coalesceTurn operand again) (coalesceTurn operand' again') fun _ => True :=
  h.next fun e => .take (by decide) (fun _ => hagain.last) (.pure e)

theorem carries_exprWith (h : Carries σ n inner inner' fun _ => True) :
    Carries σ (n + 1) (exprWith inner) (exprWith inner') fun _ => True :=
  .bounded (fun _ hk _ _ => carries_coalesceTurn ((carries_orWith h).mono hk)) (fun _ => rfl) fun _ => rfl

theorem carries_expr : Carries σ n expr expr fun _ => True :=
  .bounded (fun _ _ _ _ => carries_exprWith) (fun _ => rfl) fun _ => rfl

end Expressions

/-! ### Statements -/

section Statements

variable {σ : Seam} {n : Nat} {α : Type} {G : α → Prop} {p p' : Parser α} {t : Token} {cs : List Token}

/-- Whether a type starts with a token, by the token behind it. -/
def startsType (t next : Token) : Bool :=
  decide (t.kind = .type) || t.spells "[" || t.spells "\x7b" ||
    decide (t.kind = .ident) && (decide (next.kind = .ident) || decide (next.kind = .op) && next.text == "?")

theorem seesType_eq (t next : Token) (ts : List Token) :
    seesType (t :: next :: ts) = .ok (startsType t next) (t :: next :: ts) := by
  rw [seesType, bind_eq_of_ok (show current (t :: next :: ts) = .ok t (t :: next :: ts) from rfl), startsType]
  split
  · next h =>
    rw [h]
    rfl
  · next h =>
    rw [Bool.not_eq_true] at h
    rw [h]
    split
    · next hk =>
      rw [decide_eq_false hk]
      rfl
    · next hk =>
      rw [decide_eq_true (not_not.1 hk)]
      rfl

/-- A name before the seam is in doubt if a name comes next. -/
theorem startsType_next (σ : Seam) (t : Token) :
    startsType t σ.next = startsType t (Token.endAt σ.place) ∨
      t.kind = .ident ∧ σ.next.kind = .ident ∧ startsType t (Token.endAt σ.place) = false := by
  unfold startsType
  rw [Seam.decide_op_next, Bool.false_and]
  by_cases ht : t.kind = .ident <;> by_cases hnext : σ.next.kind = .ident <;> cases t.spells "[" <;>
    cases t.spells "\x7b" <;> simp [ht, hnext, Token.endAt]

theorem carriesAt_typeIfAny (hcs : σ.Before (t :: cs))
    (h : cs = [] → startsType t σ.next = startsType t (Token.endAt σ.place)) :
    CarriesAt σ (t :: cs) typeIfAny typeIfAny fun _ => True := by
  have hrest (b : Bool) : CarriesAt σ (t :: cs)
      (if b = true then typeExpr >>= fun type => pure (some type) else pure none)
      (if b = true then typeExpr >>= fun type => pure (some type) else pure none) fun _ => True :=
    Carries.ite (Carries.last carries_typeExpr) (.pure none) (t :: cs) hcs (Nat.lt_succ_self _)
  cases cs with
  | nil =>
    have hjoined : seesType (σ.joined [t]) = .ok (startsType t σ.next) (σ.joined [t]) := seesType_eq t _ _
    rw [h rfl] at hjoined
    exact .look (seesType_eq t _ []) hjoined (hrest _)
  | cons u cs => exact .look (seesType_eq t u _) (seesType_eq t u _) (hrest _)

/-- A type, if there is one, and a name. -/
theorem Carries.typed {f f' : Option TypeExpr → Token → Parser α}
    (hf : ∀ type t, Carries σ n (f type t) (f' type t) G)
    (hlone : ∀ t a us, f none t (σ.cut []) = .ok a us → ¬ G a) :
    Carries σ n (typeIfAny >>= fun type => expectIdent >>= f type)
      (typeIfAny >>= fun type => expectIdent >>= f' type) G := by
  intro cs hcs hlen
  cases cs with
  | nil =>
    intro a us h
    cases h
  | cons t cs =>
    have hplain (h : cs = [] → startsType t σ.next = startsType t (Token.endAt σ.place)) :
        CarriesAt σ (t :: cs) (typeIfAny >>= fun type => expectIdent >>= f type)
          (typeIfAny >>= fun type => expectIdent >>= f' type) G := by
      refine (carriesAt_typeIfAny hcs h).bind (fun type ds _ hds => ?_) fun _ _ _ _ _ => trivial
      have hident : Carries σ n (expectIdent >>= f type) (expectIdent >>= f' type) G :=
        .weaken (.ident fun u => hf type u)
      exact hident ds (hcs.suffix hds) (Nat.lt_of_le_of_lt hds.length_le hlen)
    rcases startsType_next σ t with hsame | ⟨ht, hnext, hend⟩
    · exact hplain fun _ => hsame
    cases cs with
    | cons u cs => exact hplain (absurd · (List.cons_ne_nil u cs))
    | nil =>
      -- the name is read as one before the end, so the value is not among those asked for
      intro a us ha
      have htype : typeIfAny (σ.cut [t]) = .ok none (σ.cut [t]) := by
        have hsees : seesType (σ.cut [t]) = .ok false (σ.cut [t]) := hend ▸ seesType_eq t _ []
        rw [typeIfAny, bind_eq_of_ok hsees, if_neg Bool.false_ne_true]
        rfl
      have hname : expectIdent (σ.cut [t]) = .ok t (σ.cut []) := expectIdent_eq ht
      rw [bind_eq_of_ok htype, bind_eq_of_ok hname] at ha
      obtain ⟨ds, hds, hus, -⟩ := hf none t [] Seam.before_nil (Nat.zero_lt_of_lt hlen) a us ha
      obtain rfl := List.suffix_nil.1 hds
      exact ⟨[], List.nil_suffix, hus, fun hsure => absurd (hsure rfl hnext) (hlone t a us ha)⟩

theorem carries_behind {s : String} (hs : Token.Continues s) (h : Carries σ n p p' fun _ => True) :
    Carries σ (n + 1) (behind s p) (behind s p') fun _ => True :=
  .take hs (fun _ => h.last) (.pure none)

theorem carries_param : Carries σ n param param fun _ => False := by
  refine .current (fun _ a us h => ?_) fun t => ?_
  · cases h
  · exact (Carries.typed (fun _ _ => .pure _) fun _ _ _ _ => id).from t

theorem carries_paramsInParens : Carries σ n paramsInParens paramsInParens fun _ => True :=
  (carries_itemsUntil (by decide) carries_param).closed fun ps _ => .pure ps

theorem carries_varDecl : Carries σ n varDecl varDecl fun s => ¬ s.Bare := by
  refine .weaken (.expect fun t _ => .typed ?_ ?_)
  · exact fun type u => (carries_behind (by decide) carries_expr).weaken.last
  · intro u s us h
    have hnone : behind "=" expr (σ.cut []) = .ok none (σ.cut []) := skip_eq (.cons (Seam.spells_end _))
    rw [bind_eq_of_ok hnone] at h
    cases h
    exact fun hnot => hnot ⟨_, _, rfl⟩

theorem carries_collection : Carries σ n collection collection fun s => ¬ s.Bare := by
  refine .weaken (.expect fun t _ => .weaken (.ident fun u => .weaken (.expect fun _ _ => ?_)))
  refine .look (Seam.same_seesAny (by decide)) fun _ => .ite ?_ (carries_failFor _)
  exact (carries_primaryWith carries_expr).weaken.last

theorem carries_print : Carries σ n print print fun s => ¬ s.Bare :=
  .weaken (.expect fun _ _ => (carries_items carries_expr).last)

/-- What goes on is on another line than a return. -/
theorem carries_ret : Carries σ n ret ret fun s => ¬ s.Bare := by
  refine .weaken (.expect fun t ht => .current (fun _ => ?_) fun next => ?_)
  · have hline : ¬ σ.next.pos.line = t.pos.line := by omega
    refine (CarriesAt.pure (.ret t.pos none)).of_eq ?_ ?_
    · rw [bind_eq_of_ok (show seesExpr (σ.cut []) = .ok false (σ.cut []) from rfl), Bool.and_false,
        if_neg Bool.false_ne_true]
    · rw [bind_eq_of_ok (show seesExpr (σ.joined []) = .ok _ (σ.joined []) from rfl), decide_eq_false hline,
        Bool.false_and, if_neg Bool.false_ne_true]
  · exact CarriesFrom.seesExpr fun _ => (.ite (carries_expr.last.from next) ((Carries.pure _).from next))

theorem Carries.checkTarget {e : Expr} {f f' : Unit → Parser α} (h : Carries σ n (f ()) (f' ()) G) :
    Carries σ n (checkTarget e >>= f) (checkTarget e >>= f') G := by
  unfold Parser.checkTarget
  split
  · exact h
  · exact h
  · exact .never fun _ _ _ h => by cases h

theorem carries_exprStmt : Carries σ n exprStmt exprStmt fun s => ¬ s.Bare := by
  refine .current (fun _ s us h => ?_) fun t => CarriesFrom.seesExpr fun _ => (.ite ?_ (Carries.from ?_ t))
  · cases h
  · exact (Carries.never fun ts _ _ h => by cases ts <;> cases h).from t
  refine carries_expr.next fun e => .weaken (.takeAny (by decide) (fun op => .checkTarget carries_expr.last)
    (.takeAny (by decide) (fun op => .checkTarget (.pure _)) ?_))
  split
  · exact .pure _
  · exact carries_failAt _ _

section Blocks

variable {block block' : Parser (List Stmt)} (hb : Carries σ n block block' fun _ => True)

include hb

theorem carries_clauseTurn {again again' : Parser (List ElseIf)}
    (hagain : Carries σ n again again' fun _ => True) :
    Carries σ (n + 1) (clauseTurn block again) (clauseTurn block' again') fun _ => True :=
  .take (by decide) (fun _ => carries_expr.next fun _ => hb.next fun _ => hagain.last) (.pure [])

theorem carries_function : Carries σ (n + 1) (function block) (function block') fun s => ¬ s.Bare := by
  refine .expect fun t _ => .weaken (.ident fun u => ?_)
  refine (carries_behind (by decide) carries_paramsInParens).weaken.next fun ps => ?_
  exact (carries_behind (by decide) carries_typeExpr).weaken.next fun returns => hb.last

theorem carries_classDecl : Carries σ (n + 1) (classDecl block) (classDecl block') fun s => ¬ s.Bare :=
  .expect fun _ _ => .weaken (.ident fun _ => hb.last)

theorem carries_ifChain : Carries σ (n + 1) (ifChain block) (ifChain block') fun s => ¬ s.Bare := by
  refine .expect fun t _ => carries_expr.next fun test => hb.next fun body => ?_
  have hclauses : Carries σ n (left >>= elseIfs block) (left >>= elseIfs block') fun _ => True :=
    .bounded (fun _ hk _ _ => carries_clauseTurn (hb.mono (Nat.le_of_lt hk))) (fun _ => rfl) fun _ => rfl
  exact hclauses.next fun clauses => (carries_behind (by decide) hb).weaken.last

theorem carries_whileLoop : Carries σ (n + 1) (whileLoop block) (whileLoop block') fun s => ¬ s.Bare :=
  .expect fun _ _ => carries_expr.next fun _ => hb.last

theorem carries_forLoop : Carries σ (n + 1) (forLoop block) (forLoop block') fun s => ¬ s.Bare := by
  have hname : Carries σ n (expectIdent >>= fun t => pure t.text) (expectIdent >>= fun t => pure t.text)
      fun _ => True := .weaken (.ident fun _ => .pure _)
  refine .expect fun t _ => (carries_items hname).closed fun names _ => carries_expr.next fun e => ?_
  refine .current (fun hn => ?_) fun next => .ite ?_ (Carries.from hb.last next)
  · rw [Seam.decide_op_next, Bool.and_false, if_neg Bool.false_ne_true, if_neg (by simp [Token.endAt])]
    exact Carries.last hb [] Seam.before_nil hn
  · split
    · exact .weaken (.advance (carries_expr.next fun _ => hb.last))
    · exact (carries_fail _).from next

theorem carries_stmtWith : Carries σ (n + 1) (stmtWith block) (stmtWith block') fun s => ¬ s.Bare := by
  refine .current (fun _ s us h => ?_) fun t => ?_
  · cases h
  refine .ite (carries_varDecl.from t) (.ite (carries_collection.from t) (.ite ((carries_function hb).from t)
    (.ite ((carries_classDecl hb).from t) (.ite ((carries_ifChain hb).from t) ?_))))
  refine .ite ((carries_whileLoop hb).from t) (.ite ((carries_forLoop hb).from t) (.ite (carries_print.from t)
    (.ite (carries_ret.from t) (.ite (.advance (.pure _)) (carries_exprStmt.from t)))))

end Blocks

/-! What is before the seam ends with it, so what a parser takes of it can be told apart from the rest. -/

theorem Seam.Before.ended (hcs : σ.Before cs) : Ended (σ.cut cs) :=
  ended_append (fun t ht => (hcs t ht).1) σ.place

theorem Seam.Before.taken {R : α → List Token → Prop} {a : α} {ds : List Token} (hcs : σ.Before cs)
    (hp : Takes n p p R) (hlen : cs.length < n) (h : p (σ.cut cs) = .ok a (σ.cut ds)) :
    ∃ es, cs = es ++ ds ∧ R a es := by
  have hcut : (σ.cut cs).length = cs.length + 1 := List.length_append
  have hout := (hp (σ.cut cs) hcs.ended (hcut ▸ hlen)).2
  rw [h] at hout
  cases hout with
  | @ok _ es _ heq _ ha =>
    refine ⟨es, ?_, ha⟩
    rw [Seam.cut, Seam.cut, ← List.append_assoc] at heq
    exact List.append_cancel_right heq

/-- Behind a parser that takes a token there is one token less. -/
theorem Carries.step {β : Type} {H : β → Prop} {R : α → List Token → Prop} {f f' : α → Parser β}
    (hp : Carries σ (n + 1) p p' G) (htakes : Takes (n + 1) p p R) (hne : ∀ a cs, R a cs → cs ≠ [])
    (hf : ∀ a, Carries σ n (f a) (f' a) H) (hG : ∀ a b us, f a (σ.cut []) = .ok b us → H b → G a) :
    Carries σ (n + 1) (p >>= f) (p' >>= f') H := by
  intro cs hcs hlen
  refine (hp cs hcs hlen).bind (fun a ds ha hds => hf a ds (hcs.suffix hds) ?_) hG
  obtain ⟨es, rfl, hes⟩ := hcs.taken htakes hlen ha
  have hpos := List.length_pos_of_ne_nil (hne a es hes)
  rw [List.length_append] at hlen
  omega

variable {stmt stmt' : Parser Stmt} {again again' : Parser (List Stmt)}

theorem carries_closeTurn (h : Carries σ (n + 1) stmt stmt' fun s => ¬ s.Bare)
    (htakes : Takes (n + 1) stmt stmt Stmt.IsReadFrom) (hagain : Carries σ n again again' fun _ => False) :
    Carries σ (n + 1) (closeTurn stmt again) (closeTurn stmt' again') fun _ => False := by
  refine .look (Seam.same_sees (by decide)) fun _ => .ite (.pure []) ?_
  have hmore : Carries σ (n + 1) (stmt >>= fun s => again >>= fun ss => pure (s :: ss))
      (stmt' >>= fun s => again' >>= fun ss => pure (s :: ss)) fun _ => False :=
    h.step htakes (fun _ _ hs => hs.spans.ne_nil) (fun _ => hagain.bind (fun _ => .pure _) fun _ _ _ _ h => h)
      fun _ _ _ _ h => h.elim
  intro cs hcs hlen
  cases cs with
  | nil =>
    intro a us h
    cases h
  | cons t cs =>
    have ht : decide (t.kind = .eof) = false := decide_eq_false (hcs t List.mem_cons_self).1
    refine .look (seesKind_eq (.cons ht)) (seesKind_eq (.cons ht)) ?_
    exact hmore (t :: cs) hcs hlen

theorem carries_blockWith (h : Carries σ n stmt stmt' fun s => ¬ s.Bare)
    (htakes : Takes n stmt stmt Stmt.IsReadFrom) :
    Carries σ (n + 1) (blockWith stmt) (blockWith stmt') fun _ => True := by
  refine .expect fun t _ => ?_
  have hbody : Carries σ n (left >>= stmtsUntilClose stmt) (left >>= stmtsUntilClose stmt') fun _ => False :=
    .bounded (fun _ hk _ _ => carries_closeTurn (h.mono hk) (htakes.mono hk)) (fun _ => rfl) fun _ => rfl
  exact hbody.closed fun body _ => .pure body

theorem carries_block : Carries σ n block block fun _ => True := by
  refine .left fun k hk m hm => ?_
  have hunrolled : Unrolled k (fun b => blockWith (stmtWith b)) (fun b => blockWith (stmtWith b))
      fun p q => Carries σ k p q (fun _ => True) ∧ Takes k p p blockIsReadFrom :=
    .of_turn (fun j p q => Carries σ j p q (fun _ => True) ∧ Takes j p p blockIsReadFrom)
      (fun _ _ => ⟨.zero, .zero⟩) fun j _ p q h =>
        ⟨(carries_blockWith (carries_stmtWith h.1) (takes_stmtWith h.2)).weaken,
          (takes_blockWith (takes_stmtWith h.2)).weaken⟩
  exact (hunrolled blockWithin blockWithin (fun _ => rfl) (fun _ => rfl) k m (Nat.le_refl k) hm).1

theorem carries_stmt : Carries σ n Parser.stmt Parser.stmt fun s => ¬ s.Bare :=
  (carries_stmtWith carries_block).weaken

end Statements

/-! ### Programs -/

section Programs

variable {σ : Seam} {t u v : Token} {ts us vs cs : List Token} {A B : Program} {s : Stmt}

/-- As many statements as there are tokens are enough. -/
theorem stmtsUntilEnd_eq {n : Nat} (hts : Ended ts) (hn : ts.length ≤ n) : stmtsUntilEnd n ts = program ts :=
  (unrolled_endTurn stmtsUntilEnd stmtsUntilEnd (fun _ => rfl) (fun _ => rfl) n ts.length hn (Nat.le_refl _)
    ts hts (Nat.le_refl _)).1

theorem program_eq (hts : Ended ts) (hfront : Front (fun t => t.kind ≠ .eof) ts) :
    program ts = (stmt >>= fun s => program >>= fun ss => pure (s :: ss)) ts := by
  obtain ⟨t, ts, rfl, ht⟩ := hfront
  have hturn : program (t :: ts) =
      (stmt >>= fun s => stmtsUntilEnd ts.length >>= fun ss => pure (s :: ss)) (t :: ts) := by
    show endTurn (stmtsUntilEnd ts.length) (t :: ts) = _
    rw [endTurn, bind_eq_of_ok (seesKind_eq (.cons (decide_eq_false ht))), if_neg Bool.false_ne_true]
  have hout := (takes_stmt (t :: ts) hts (Nat.le_refl _)).2
  rw [hturn]
  cases hstmt : stmt (t :: ts) with
  | error e us => rw [bind_eq_of_error hstmt, bind_eq_of_error hstmt]
  | ok s us =>
    rw [hstmt] at hout
    cases hout with
    | @ok _ es _ heq hus hs =>
      have hpos := List.length_pos_of_ne_nil hs.spans.ne_nil
      have hlen := congrArg List.length heq
      rw [List.length_cons, List.length_append] at hlen
      have hrest : stmtsUntilEnd ts.length us = program us := stmtsUntilEnd_eq hus (by omega)
      rw [bind_eq_of_ok hstmt, bind_eq_of_ok hstmt]
      show EStateM.bind _ _ us = EStateM.bind _ _ us
      rw [EStateM.bind, EStateM.bind, hrest]

/-- One statement before the seam. -/
theorem program_step (hcs : σ.Before (t :: cs)) (h : program (σ.cut (t :: cs)) = .ok A us) :
    ∃ s ss ds, A = s :: ss ∧ ds <:+ cs ∧ program (σ.cut ds) = .ok ss us ∧
      (ds = [] → s.Spans (t :: cs)) ∧
      ((ds = [] → σ.next.kind = .ident → ¬ s.Bare) → stmt (σ.joined (t :: cs)) = .ok s (σ.joined ds)) := by
  rw [program_eq hcs.ended (.cons (hcs t List.mem_cons_self).1)] at h
  obtain ⟨s, mid, hs, h⟩ := bind_ok.1 h
  obtain ⟨ss, vs, hss, h⟩ := bind_ok.1 h
  obtain ⟨rfl, rfl⟩ := pure_ok.1 h
  obtain ⟨ds, hds, rfl, hcarry⟩ := carries_stmt (t :: cs) hcs (Nat.lt_succ_self _) s mid hs
  obtain ⟨es, hes, hspans, -⟩ := hcs.taken takes_stmt (Nat.lt_succ_self _) hs
  refine ⟨s, ss, ds, rfl, ?_, hss, ?_, hcarry⟩
  · obtain ⟨e, es, rfl⟩ := List.exists_cons_of_ne_nil hspans.ne_nil
    exact ⟨es, (List.cons.inj hes).2.symm⟩
  · rintro rfl
    rw [hes, List.append_nil]
    exact hspans

theorem program_cut_nil (h : program (σ.cut []) = .ok A us) : A = [] := by
  cases h
  rfl

theorem ended_joined (hrest : Ended (σ.next :: σ.rest)) (hcs : σ.Before cs) : Ended (σ.joined cs) := by
  induction cs with
  | nil => exact hrest
  | cons t cs ih => exact .cons (hcs t List.mem_cons_self).1 (ih (hcs.suffix (List.suffix_cons t cs)))

/-- The statements before the seam are followed by those behind it. -/
theorem program_joined (hrest : Ended (σ.next :: σ.rest)) (hcs : σ.Before cs)
    (hA : program (σ.cut cs) = .ok A us) (hB : program (σ.next :: σ.rest) = .ok B vs)
    (hsure : σ.next.kind = .ident → ∀ s ∈ A.getLast?, ¬ s.Bare) :
    program (σ.joined cs) = .ok (A ++ B) vs := by
  induction hk : cs.length using Nat.strong_induction_on generalizing cs A with
  | _ k ih =>
    cases cs with
    | nil =>
      obtain rfl := program_cut_nil hA
      exact hB
    | cons t cs =>
      obtain ⟨s, ss, ds, rfl, hds, hss, -, hcarry⟩ := program_step hcs hA
      have hbefore := hcs.suffix (hds.trans (List.suffix_cons t cs))
      have hs : stmt (σ.joined (t :: cs)) = .ok s (σ.joined ds) := by
        refine hcarry ?_
        rintro rfl hnext
        obtain rfl := program_cut_nil hss
        exact hsure hnext s rfl
      have hlast : σ.next.kind = .ident → ∀ s ∈ ss.getLast?, ¬ s.Bare := by
        intro hnext s' hs'
        refine hsure hnext s' ?_
        rw [List.getLast?_cons, hs']
        rfl
      have hshorter : ds.length < k := hk ▸ Nat.lt_succ_of_le hds.length_le
      have hmore := ih ds.length hshorter hbefore hss hlast rfl
      rw [program_eq (ended_joined hrest hcs) (.cons (hcs t List.mem_cons_self).1), bind_eq_of_ok hs,
        bind_eq_of_ok hmore]
      rfl

/-- Of two names behind the word of a declaration the first is its type. -/
theorem stmt_not_bare (ht : t.spells Keyword.var.text = true) (hu : u.kind = .ident) (hv : v.kind = .ident)
    (h : stmt (t :: u :: v :: ts) = .ok s us) : ¬ s.Bare := by
  have htext : t.text = Keyword.var.text := (Token.spells_iff.1 ht).1
  have hdecl : stmt (t :: u :: v :: ts) = varDecl (t :: u :: v :: ts) := by
    rw [stmt, stmtWith, bind_eq_of_ok (show current (t :: u :: v :: ts) = .ok t _ from rfl), if_pos htext]
  have htype : startsType u v = true := by simp [startsType, hu, hv]
  rw [hdecl, varDecl, bind_eq_of_ok (expect_eq ht)] at h
  obtain ⟨type, mid, hy, h⟩ := bind_ok.1 h
  rw [typeIfAny, bind_eq_of_ok (seesType_eq u v ts), htype, if_pos rfl] at hy
  obtain ⟨_, _, -, hy⟩ := bind_ok.1 hy
  obtain ⟨rfl, rfl⟩ := pure_ok.1 hy
  obtain ⟨_, _, -, h⟩ := bind_ok.1 h
  obtain ⟨_, _, -, h⟩ := bind_ok.1 h
  obtain ⟨rfl, -⟩ := pure_ok.1 h
  rintro ⟨p, x, heq⟩
  cases heq

/-- A bare declaration before the seam is read otherwise if a name comes next. -/
theorem program_joined_ne (hrest : Ended (σ.next :: σ.rest)) (hcs : σ.Before cs)
    (hA : program (σ.cut cs) = .ok A us) (hnext : σ.next.kind = .ident) (hs : s ∈ A.getLast?) (hbare : s.Bare) :
    program (σ.joined cs) ≠ .ok (A ++ B) vs := by
  induction hk : cs.length using Nat.strong_induction_on generalizing cs A with
  | _ k ih =>
    cases cs with
    | nil =>
      obtain rfl := program_cut_nil hA
      cases hs
    | cons t cs =>
      obtain ⟨s', ss, ds, rfl, hds, hss, hspans, hcarry⟩ := program_step hcs hA
      rw [program_eq (ended_joined hrest hcs) (.cons (hcs t List.mem_cons_self).1)]
      intro h
      obtain ⟨s₁, mid, hs₁, h⟩ := bind_ok.1 h
      obtain ⟨ss₁, vs₁, hss₁, h⟩ := bind_ok.1 h
      obtain ⟨heq, rfl⟩ := pure_ok.1 h
      obtain ⟨rfl, rfl⟩ := List.cons.inj heq
      cases ds with
      | nil =>
        obtain rfl := program_cut_nil hss
        obtain rfl : s₁ = s := Option.some.inj hs
        have hspans := hspans rfl
        obtain ⟨p, x, rfl⟩ := hbare
        cases hspans with
        | varDecl ht hy hu hi =>
          cases hy
          cases hi
          exact stmt_not_bare ht hu hnext hs₁ ⟨_, _, rfl⟩
      | cons d ds =>
        have hbefore := hcs.suffix (hds.trans (List.suffix_cons t cs))
        have hlast : s ∈ ss.getLast? := by
          obtain ⟨s', ss', -, rfl, -⟩ := program_step hbefore hss
          rwa [List.getLast?_cons_cons] at hs
        obtain ⟨-, rfl⟩ := EStateM.Result.ok.inj (hs₁.symm.trans (hcarry (absurd · (List.cons_ne_nil d ds))))
        have hshorter : (d :: ds).length < k := hk ▸ Nat.lt_succ_of_le hds.length_le
        exact ih (d :: ds).length hshorter hbefore hss hlast rfl hss₁

theorem run_ok : run ts = .ok A ↔ ∃ us, program ts = .ok A us := by
  unfold run
  cases program ts <;> simp

theorem ended_move {f : Pos → Pos} (h : Ended ts) : Ended (ts.map (Token.move f)) := by
  induction h with
  | last p => exact .last (f p)
  | cons ht _ ih => exact .cons ht ih

/-- The first token of a text that starts with a statement. -/
theorem head_of_scan {source : String} (h : Token.scan source = .ok (v :: us)) (hv : v.OpensStmt) :
    v.Regular ∧ 1 ≤ v.pos.line := by
  obtain ⟨body, q, hbody, hregular⟩ := Token.regular_of_scan h
  have hmem : v ∈ body := by
    cases body with
    | nil =>
      obtain ⟨rfl, -⟩ := List.cons.inj hbody
      rcases hv with hk | ⟨hk, -⟩ <;> cases hk
    | cons u body =>
      obtain ⟨rfl, -⟩ := List.cons.inj hbody
      exact List.mem_cons_self
  rw [hbody] at h
  exact ⟨(hregular v hmem).1.1, (Token.lines_of_scan h v hmem).1⟩

/-- Two programs, the second of which starts with a name or the first word of a statement, are read one behind
the other when a line break is between them, unless the first one ends in the declaration of a variable with
its name alone and the second one starts with a name. -/
theorem run_joined_iff {a b : String} (ha : Token.scan a = .ok ts) (hA : run ts = .ok A)
    (hb : Token.scan b = .ok (v :: us)) (hB : run (v :: us) = .ok B) (hv : v.OpensStmt) :
    ∃ ws, Token.scan (a ++ "\n" ++ b) = .ok ws ∧
      (run ws = .ok (A ++ moveBlock (Pos.lowered (a.toList.count '\n' + 1)) B) ↔
        ¬ (v.kind = .ident ∧ ∃ s ∈ A.getLast?, s.Bare)) := by
  obtain ⟨body, q, rfl, hbody⟩ := Token.regular_of_scan ha
  obtain ⟨hregular, hfirst⟩ := head_of_scan hb hv
  refine ⟨body ++ (v :: us).map (Token.move (Pos.lowered (a.toList.count '\n' + 1))), ?_, ?_⟩
  · rw [Token.scan_feed ha, hb]
    rfl
  have hlast := Token.line_of_scan ha
  have hlines := Token.lines_of_scan ha
  have hmoved := moved_run (Token.movesTo_lowered (a.toList.count '\n' + 1) (v :: us))
  generalize a.toList.count '\n' = k at *
  let σ : Seam := ⟨q, v.move (Pos.lowered (k + 1)), us.map (Token.move (Pos.lowered (k + 1))), hv, hregular⟩
  have hbefore : σ.Before body := by
    intro t ht
    refine ⟨(hbody t ht).2, ?_⟩
    have hle := (hlines t ht).2
    show t.pos.line < v.pos.line + ((k + 1 : Nat) : Int)
    omega
  have hrest : Ended (σ.next :: σ.rest) := ended_move (ended_of_scan hb)
  obtain ⟨us', hA⟩ := run_ok.1 hA
  rw [hB] at hmoved
  rcases hmoved.cases with ⟨B', C, hB', hC, rfl⟩ | ⟨e, d, he, -, -⟩
  · obtain rfl := Except.ok.inj hB'
    obtain ⟨vs', hC⟩ := run_ok.1 hC
    constructor
    · rintro h ⟨hname, s, hs, hbare⟩
      obtain ⟨ws', h⟩ := run_ok.1 h
      exact program_joined_ne hrest hbefore hA hname hs hbare h
    · intro hsure
      refine run_ok.2 ⟨vs', program_joined hrest hbefore hA hC ?_⟩
      exact fun hname s hs hbare => hsure ⟨hname, s, hs, hbare⟩
  · cases he

/-- A return without a value, which would take what follows it on its line. -/
def returnSource : String := "🍽 x\n🫗"

def returnTokens : List Token :=
  [⟨.keyword, "🍽", ⟨1, 1⟩⟩, ⟨.ident, "x", ⟨1, 3⟩⟩, ⟨.keyword, "🫗", ⟨2, 1⟩⟩, .endAt ⟨2, 2⟩]

def returnTree : Program := [.print ⟨1, 1⟩ [.var ⟨1, 3⟩ "x"], .ret ⟨2, 1⟩ none]

/-- The tokens of `f(2)` behind its first one. -/
def callRest : List Token :=
  [⟨.op, "(", ⟨1, 2⟩⟩, ⟨.number, "2", ⟨1, 3⟩⟩, ⟨.op, ")", ⟨1, 4⟩⟩, .endAt ⟨1, 5⟩]

theorem run_joined_iff_return :
    Token.scan returnSource = .ok returnTokens ∧ run returnTokens = .ok returnTree ∧
      Token.scan "f(2)" = .ok (⟨.ident, "f", ⟨1, 1⟩⟩ :: callRest) ∧
      run (⟨.ident, "f", ⟨1, 1⟩⟩ :: callRest) =
        .ok [.call ⟨1, 1⟩ (.var ⟨1, 1⟩ "f") (some [.num ⟨1, 3⟩ "2"])] ∧
      ∃ ws, Token.scan (returnSource ++ "\n" ++ "f(2)") = .ok ws ∧
        run ws = .ok (returnTree ++ [.call ⟨3, 1⟩ (.var ⟨3, 1⟩ "f") (some [.num ⟨3, 3⟩ "2"])]) := by
  have hreturn : run returnTokens = .ok returnTree := by cbv
  have hcall : run (⟨.ident, "f", ⟨1, 1⟩⟩ :: callRest) =
      .ok [.call ⟨1, 1⟩ (.var ⟨1, 1⟩ "f") (some [.num ⟨1, 3⟩ "2"])] := by cbv
  obtain ⟨ws, hws, hiff⟩ := run_joined_iff (a := returnSource) (b := "f(2)") rfl hreturn rfl hcall (.inl rfl)
  refine ⟨rfl, hreturn, rfl, hcall, ws, hws, hiff.2 ?_⟩
  rintro ⟨-, s, hs, p, x, rfl⟩
  cases hs

/-- The name of the next statement is taken for the name of the variable. -/
theorem declaration_takes_next_name :
    Token.scan "🍳 x" = .ok [⟨.keyword, "🍳", ⟨1, 1⟩⟩, ⟨.ident, "x", ⟨1, 3⟩⟩, .endAt ⟨1, 4⟩] ∧
      run [⟨.keyword, "🍳", ⟨1, 1⟩⟩, ⟨.ident, "x", ⟨1, 3⟩⟩, .endAt ⟨1, 4⟩] =
        .ok [.varDecl ⟨1, 1⟩ none "x" none] ∧
      Token.scan "y = 1" =
        .ok [⟨.ident, "y", ⟨1, 1⟩⟩, ⟨.op, "=", ⟨1, 3⟩⟩, ⟨.number, "1", ⟨1, 5⟩⟩, .endAt ⟨1, 6⟩] ∧
      run [⟨.ident, "y", ⟨1, 1⟩⟩, ⟨.op, "=", ⟨1, 3⟩⟩, ⟨.number, "1", ⟨1, 5⟩⟩, .endAt ⟨1, 6⟩] =
        .ok [.assign ⟨1, 1⟩ (.var ⟨1, 1⟩ "y") (.num ⟨1, 5⟩ "1")] ∧
      Token.scan ("🍳 x" ++ "\n" ++ "y = 1") =
        .ok [⟨.keyword, "🍳", ⟨1, 1⟩⟩, ⟨.ident, "x", ⟨1, 3⟩⟩, ⟨.ident, "y", ⟨2, 1⟩⟩, ⟨.op, "=", ⟨2, 3⟩⟩,
          ⟨.number, "1", ⟨2, 5⟩⟩, .endAt ⟨2, 6⟩] ∧
      run [⟨.keyword, "🍳", ⟨1, 1⟩⟩, ⟨.ident, "x", ⟨1, 3⟩⟩, ⟨.ident, "y", ⟨2, 1⟩⟩, ⟨.op, "=", ⟨2, 3⟩⟩,
          ⟨.number, "1", ⟨2, 5⟩⟩, .endAt ⟨2, 6⟩] =
        .ok [.varDecl ⟨1, 1⟩ (some (.ref ⟨1, 3⟩ "x")) "y" (some (.num ⟨2, 5⟩ "1"))] :=
  ⟨rfl, by cbv, rfl, by cbv, rfl, by cbv⟩

end Programs

end Parser

end Snack
