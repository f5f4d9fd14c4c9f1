import Snack.Parser.Expr
import Snack.Proofs.Parser.Forward
import Snack.Proofs.Tree.Follow
import Snack.Proofs.Tree.Moved

/-! Every expression of the grammar is read back from its tokens, whatever stands behind them, as long as
that does not go on with the expression. -/

namespace Snack.Parser

open Snack.Tree
open Token (Kind)

/-! ### Types -/

section Types

variable {inner : Parser TypeExpr} {n : Nat}

/-- The parser reads back every written type of at most `n` tokens. -/
def RecoversType (n : Nat) (p : Parser TypeExpr) : Prop :=
  ∀ (t : TypeExpr) (cs us : List Token), t.Graded → cs.map Token.lexeme ∈ t.yields → cs.length ≤ n →
    Front (fun u => u.spells "?" = false) us → Parses p cs us (·.bare = t.bare)

theorem optionalMarks_stop {us : List Token} (hus : Front (fun u => u.spells "?" = false) us) (p : Pos)
    (k : Nat) (t : TypeExpr) : optionalMarks p k t us = .ok t us := by
  cases k with
  | zero => rfl
  | succ k => exact skip_eq hus

theorem enters_optionalMarks (h : RecoversType n inner) {t : TypeExpr} (ht : t.Graded) {cs : List Token}
    (hcs : cs.map Token.lexeme ∈ t.yields) (hn : cs.length ≤ n + 1) (us : List Token) :
    ∃ p, Enters (typeWith inner) cs us (optionalMarks p) (·.bare = t.bare) := by
  induction ht generalizing cs us with
  | @named p name hname =>
    obtain ⟨c, rfl, hc⟩ := exists_of_single hcs
    have hk : c.kind = .type := Token.kind_of_lexeme hc
    refine ⟨c.pos, .look rfl (.look rfl (.look rfl ?_))⟩
    rw [if_pos hk]
    refine .advance (by simp [hk]) (.start ?_)
    exact congrArg (TypeExpr.named .unknown) (Token.text_of_lexeme hc)
  | @ref p name hname =>
    obtain ⟨c, rfl, hc⟩ := exists_of_single hcs
    have hk : c.kind = .ident := Token.kind_of_lexeme hc
    have hword : c.lexeme = .ofText name := by rw [hc, Lexeme.ofText, hname]
    have hnot : ∀ s, Kind.ofText s ≠ .ident → ¬c.spells s = true := fun s hs =>
      Bool.eq_false_iff.1 (not_spells_of_kind hword (by rw [hname]; exact hs.symm))
    refine ⟨c.pos, .look rfl (.look rfl (.look rfl ?_))⟩
    rw [if_neg (by simp [hk]), if_neg (hnot _ (by decide)), if_neg (hnot _ (by decide)), if_pos hk]
    refine .advance (by simp [hk]) (.start ?_)
    exact congrArg (TypeExpr.ref .unknown) (Token.text_of_lexeme hc)
  | @array p base hbase =>
    rw [TypeExpr.yields, mul_assoc] at hcs
    obtain ⟨c, cs, rfl, hc, hcs⟩ := exists_of_word_mul hcs
    obtain ⟨ds, d, rfl, hds, hd⟩ := exists_of_mul_word hcs
    have hk : c.kind = .op := Token.kind_of_lexeme hc
    have hs : c.spells "[" = true := Token.spells_of_lexeme hc (by decide)
    simp only [List.length_cons, List.length_append] at hn
    refine ⟨c.pos, .look rfl (.look rfl (.look rfl ?_))⟩
    rw [if_neg (by simp [hk]), if_pos hs]
    refine .advance (by simp [hk]) (.bind (h base ds _ hbase hds (by omega) ?_) fun b hb => ?_)
    · exact .cons (not_spells_of_lexeme hd (by decide))
    · refine .expect (Token.spells_of_lexeme hd (by decide)) (.start ?_)
      exact congrArg (TypeExpr.array .unknown) hb
  | @dict p key value hkey hvalue =>
    simp only [TypeExpr.yields, mul_assoc] at hcs
    obtain ⟨c, cs, rfl, hc, hcs⟩ := exists_of_word_mul hcs
    obtain ⟨ks, cs, rfl, hks, hcs⟩ := exists_of_mul hcs
    obtain ⟨d, cs, rfl, hd, hcs⟩ := exists_of_word_mul hcs
    obtain ⟨vs, e, rfl, hvs, he⟩ := exists_of_mul_word hcs
    have hk : c.kind = .op := Token.kind_of_lexeme hc
    have hs : c.spells "\x7b" = true := Token.spells_of_lexeme hc (by decide)
    have hs' : ¬c.spells "[" = true := Bool.eq_false_iff.1 (not_spells_of_lexeme hc (by decide))
    simp only [List.length_cons, List.length_append] at hn
    refine ⟨c.pos, .look rfl (.look rfl (.look rfl ?_))⟩
    rw [if_neg (by simp [hk]), if_neg hs', if_pos hs]
    refine .advance (by simp [hk]) (.bind (h key ks _ hkey hks (by omega) ?_) fun k hk => ?_)
    · exact .cons (not_spells_of_lexeme hd (by decide))
    refine .expect (Token.spells_of_lexeme hd (by decide)) ?_
    refine .bind (h value vs _ hvalue hvs (by omega) ?_) fun v hv => ?_
    · exact .cons (not_spells_of_lexeme he (by decide))
    · refine .expect (Token.spells_of_lexeme he (by decide)) (.start ?_)
      exact congrArg₂ (TypeExpr.dict .unknown) hk hv
  | @optional p base hbase ih =>
    obtain ⟨ds, c, rfl, hds, hc⟩ := exists_of_mul_word hcs
    rw [List.length_append] at hn
    obtain ⟨q, hq⟩ := ih hds (by omega) ([c] ++ us)
    refine ⟨q, hq.step (List.cons_ne_nil _ _) fun k b hb hk => ?_⟩
    refine .of_eq (take_eq (Token.spells_of_lexeme hc (by decide))) (.again hk ?_)
    exact congrArg (TypeExpr.optional .unknown) hb

theorem recoversType_typeWith (h : RecoversType n inner) : RecoversType (n + 1) (typeWith inner) := by
  intro t cs us ht hcs hn hus
  obtain ⟨p, hp⟩ := enters_optionalMarks h ht hcs hn us
  exact hp.parses fun k t => optionalMarks_stop hus p k t

theorem recoversType_typeWithin (n : Nat) : RecoversType n (typeWithin n) := by
  induction n with
  | zero =>
    intro t cs us ht hcs hn
    rw [List.length_eq_zero_iff.1 (Nat.le_zero.1 hn)] at hcs
    exact absurd hcs t.nil_notMem_yields
  | succ n ih => exact recoversType_typeWith ih

theorem recoversType_typeExpr (n : Nat) : RecoversType n typeExpr := by
  intro t cs us ht hcs _ hus
  refine .left (recoversType_typeWithin _ t cs us ht hcs ?_ hus)
  simp

end Types

/-! ### Lists of expressions -/

/-- The parser reads back every expression of the level with at most `n` tokens. -/
def Recovers (n : Nat) (lv : Level) (p : Parser Expr) : Prop :=
  ∀ (e : Expr) (cs us : List Token), e.Fits lv → cs.map Token.lexeme ∈ e.yields → cs.length ≤ n →
    Front (Ends lv) us → Parses p cs us (·.bare = e.bare)

theorem front_starts {e : Expr} (he : e.Graded) {cs : List Token}
    (hcs : cs.map Token.lexeme ∈ e.yields) (us : List Token) :
    Front (fun t => Starts e.level t.lexeme) (cs ++ us) := by
  cases cs with
  | nil => exact absurd hcs e.nil_notMem_yields
  | cons c cs => exact .cons (starts_of_yields he hcs)

section Lists

variable {inner : Parser Expr} {n : Nat} {es : List Expr} {t : Token} {ds us : List Token}
variable {close : String}

theorem front_ends_more (hds : ds.map Token.lexeme ∈ ((yieldsOf es).map (word "," * ·)).prod)
    (ht : Ends .coalesce t) : Front (Ends .coalesce) (ds ++ t :: us) := by
  cases es with
  | nil =>
    obtain rfl : ds = [] := List.map_eq_nil_iff.1 hds
    exact .cons ht
  | cons e es =>
    rw [yieldsOf, List.map_cons, List.prod_cons, mul_assoc] at hds
    obtain ⟨c, ds, rfl, hc, -⟩ := exists_of_word_mul hds
    exact .cons (ends_of_closer (Token.spells_of_lexeme hc (by decide)) (by decide))

/-- Every item takes a comma, so the tokens bound the items. -/
theorem parses_moreItems (h : Recovers n .coalesce inner) (hclose : close ∈ [")", "]"])
    (ht : t.spells close = true) (he : ∀ e ∈ es, e.Graded)
    (hds : ds.map Token.lexeme ∈ ((yieldsOf es).map (word "," * ·)).prod) (hn : ds.length ≤ n) {k : Nat}
    (hk : ds.length ≤ k) : Parses (moreItems inner k) ds (t :: us) (bareExprs · = bareExprs es) := by
  have hclosers : ∀ s ∈ [")", "]"], s ∈ closers ∧ s ≠ "," := by decide
  have hends : Ends .coalesce t := ends_of_closer ht (hclosers _ hclose).1
  have hcomma : t.spells "," = false :=
    Token.spells_eq_false ((Token.spells_iff.1 ht).1 ▸ (hclosers _ hclose).2)
  induction es generalizing ds k with
  | nil =>
    obtain rfl : ds = [] := List.map_eq_nil_iff.1 hds
    cases k with
    | zero => exact .pure rfl
    | succ k => exact .skip (.cons hcomma) (.pure rfl)
  | cons e es ih =>
    rw [yieldsOf, List.map_cons, List.prod_cons, mul_assoc] at hds
    obtain ⟨c, ds, rfl, hc, hds⟩ := exists_of_word_mul hds
    obtain ⟨xs, ys, rfl, hxs, hys⟩ := exists_of_mul hds
    obtain ⟨hhead, htail⟩ := List.forall_mem_cons.1 he
    simp only [List.length_cons, List.length_append] at hn hk
    obtain ⟨k, rfl⟩ : ∃ k', k = k' + 1 := ⟨k - 1, by omega⟩
    refine .take (Token.spells_of_lexeme hc (by decide)) ?_
    refine .bind (h e xs _ ⟨hhead, Nat.zero_le _⟩ hxs (by omega) (front_ends_more hys hends)) fun a ha => ?_
    refine .last (ih htail hys (by omega) (by omega)) fun as has => .pure ?_
    exact congrArg₂ List.cons ha has

theorem parses_itemsUntil (h : Recovers n .coalesce inner) (hclose : close ∈ [")", "]"])
    (ht : t.spells close = true) (he : ∀ e ∈ es, e.Graded)
    (hds : ds.map Token.lexeme ∈ listed (yieldsOf es)) (hn : ds.length ≤ n) :
    Parses (itemsUntil close inner) ds (t :: us) (bareExprs · = bareExprs es) := by
  have hclosers : ∀ s ∈ [")", "]"], s ∈ closers ∧ ¬Starts .coalesce (.ofText s) := by decide
  cases es with
  | nil =>
    obtain rfl : ds = [] := List.map_eq_nil_iff.1 hds
    refine .look (sees_eq (.cons ht)) ?_
    rw [if_pos rfl]
    exact .pure rfl
  | cons e es =>
    rw [yieldsOf, listed] at hds
    obtain ⟨xs, ys, rfl, hxs, hys⟩ := exists_of_mul hds
    obtain ⟨hhead, htail⟩ := List.forall_mem_cons.1 he
    rw [List.length_append] at hn
    refine .skip ?_ (.bind (h e xs _ ⟨hhead, Nat.zero_le _⟩ hxs (by omega) ?_) fun a ha => ?_)
    · rw [List.append_assoc]
      refine (front_starts hhead hxs _).imp fun u hu => ?_
      exact (hu.mono (Nat.zero_le _)).spells_eq_false (hclosers _ hclose).2
    · exact front_ends_more hys (ends_of_closer ht (hclosers _ hclose).1)
    · refine .left (.last (parses_moreItems h hclose ht htail hys (by omega) (by simp)) fun as has => ?_)
      refine .pure ?_
      exact congrArg₂ List.cons ha has

/-- Behind an entry the dictionary ends, or a comma stands. -/
theorem exists_of_entries {L : Language Lexeme} {Ls : List (Language Lexeme)}
    (h : ds.map Token.lexeme ∈ listedWithComma (L :: Ls)) :
    ∃ xs ys, ds = xs ++ ys ∧ xs.map Token.lexeme ∈ L ∧ (ys = [] ∧ Ls = [] ∨
      ∃ c zs, ys = c :: zs ∧ c.lexeme = .ofText "," ∧ zs.map Token.lexeme ∈ listedWithComma Ls) := by
  rcases of_mem_listedWithComma_cons h with ⟨hnil, hL⟩ | h
  · exact ⟨ds, [], (List.append_nil ds).symm, hL, .inl ⟨rfl, hnil⟩⟩
  · obtain ⟨xs, ys, rfl, hxs, hys⟩ := exists_of_mul h
    exact ⟨xs, ys, rfl, hxs, .inr (exists_of_word_mul hys)⟩

theorem parses_entries (h : Recovers n .coalesce inner) {es : List Entry} (ht : t.spells "\x7d" = true)
    (hk : ∀ e ∈ es, e.key.Graded) (hv : ∀ e ∈ es, e.value.Graded)
    (hds : ds.map Token.lexeme ∈ listedWithComma (yieldsOfEntries es)) (hn : ds.length ≤ n) {k : Nat}
    (hlen : ds.length ≤ k) :
    Parses (entries inner k) ds (t :: us) (bareEntries · = bareEntries es) := by
  induction es generalizing ds k with
  | nil =>
    obtain rfl : ds = [] := List.map_eq_nil_iff.1 hds
    cases k with
    | zero => exact .pure rfl
    | succ k =>
      refine .look (sees_eq (.cons ht)) ?_
      rw [if_pos rfl]
      exact .pure rfl
  | cons e es ih =>
    obtain ⟨p, key, value⟩ := e
    obtain ⟨hkey, hk⟩ := List.forall_mem_cons.1 hk
    obtain ⟨hvalue, hv⟩ := List.forall_mem_cons.1 hv
    obtain ⟨xs, ys, rfl, hxs, hys⟩ := exists_of_entries hds
    rw [mul_assoc] at hxs
    obtain ⟨ks, vs, rfl, hks, hvs⟩ := exists_of_mul hxs
    obtain ⟨d, vs, rfl, hd, hvs⟩ := exists_of_word_mul hvs
    simp only [List.length_cons, List.length_append] at hn hlen
    obtain ⟨k, rfl⟩ : ∃ k', k = k' + 1 := ⟨k - 1, by omega⟩
    rw [List.append_assoc]
    refine .skip ?_ (.bind (h key ks _ ⟨hkey, Nat.zero_le _⟩ hks (by omega) ?_) fun a ha => ?_)
    · rw [List.append_assoc]
      refine (front_starts hkey hks _).imp fun u hu => ?_
      exact (hu.mono (Nat.zero_le _)).spells_eq_false (by decide : ¬Starts .coalesce _)
    · exact .cons (ends_of_closer (Token.spells_of_lexeme hd (by decide)) (by decide))
    refine .expect (Token.spells_of_lexeme hd (by decide)) ?_
    rcases hys with ⟨rfl, hes⟩ | ⟨c, zs, rfl, hc, hzs⟩
    · have hnil : es = [] := by
        cases es with
        | nil => rfl
        | cons e es => cases e; cases hes
      subst hnil
      refine .bind (h value vs _ ⟨hvalue, Nat.zero_le _⟩ hvs (by omega) ?_) fun b hb => ?_
      · exact .cons (ends_of_closer ht (by decide))
      · refine .skip (.cons (Token.spells_eq_false ?_)) (.pure ?_)
        · rw [(Token.spells_iff.1 ht).1]
          decide
        · exact congrArg₂ (fun k v => [Entry.mk .unknown k v]) ha hb
    · rw [List.length_cons] at hn hlen
      refine .bind (h value vs _ ⟨hvalue, Nat.zero_le _⟩ hvs (by omega) ?_) fun b hb => ?_
      · exact .cons (ends_of_closer (Token.spells_of_lexeme hc (by decide)) (by decide))
      · refine .take (Token.spells_of_lexeme hc (by decide)) ?_
        refine .last (ih hk hv hzs (by omega) (by omega)) fun bs hbs => .pure ?_
        exact congrArg₂ List.cons (congrArg₂ (Entry.mk .unknown) ha hb) hbs

theorem parses_parenthesized (h : Recovers n .coalesce inner) {e : Expr} (he : ∀ a ∈ e :: es, a.Graded)
    (hds : ds.map Token.lexeme ∈ listed (yieldsOf (e :: es))) (hn : ds.length ≤ n)
    (ht : t.spells ")" = true) (p q : Pos) :
    Parses (parenthesized inner p) (ds ++ [t]) us
      (·.bare = (if es.isEmpty then Expr.paren q e else .tuple q (e :: es)).bare) := by
  rw [yieldsOf, listed] at hds
  obtain ⟨xs, ys, rfl, hxs, hys⟩ := exists_of_mul hds
  obtain ⟨hhead, htail⟩ := List.forall_mem_cons.1 he
  rw [List.length_append] at hn
  rw [List.append_assoc]
  refine .bind (h e xs _ ⟨hhead, Nat.zero_le _⟩ hxs (by omega) ?_) fun a ha => .left ?_
  · rw [List.append_assoc]
    exact front_ends_more hys (ends_of_closer ht (by decide))
  refine .bind (parses_moreItems h (by simp) ht htail hys (by omega) (by simp)) fun as has => ?_
  refine .expect ht (.pure ?_)
  have hempty : as.isEmpty = es.isEmpty := by
    have hbare := congrArg List.isEmpty has
    cases as <;> cases es <;> exact hbare
  rw [hempty]
  split
  · exact congrArg (Expr.paren .unknown) ha
  · exact congrArg (Expr.tuple .unknown) (congrArg₂ List.cons ha has)

end Lists

/-! ### Primary expressions -/

section Primary

variable {inner : Parser Expr} {n : Nat}

theorem parses_bracketed_items (h : Recovers n .coalesce inner) {es : List Expr}
    (he : ∀ e ∈ es, e.Graded) {ds us : List Token} (hds : ds.map Token.lexeme ∈ listed (yieldsOf es))
    (hn : ds.length ≤ n) {t : Token} (ht : t.lexeme = .ofText "]") (p q : Pos) :
    Parses (bracketed inner p) (ds ++ [t]) us (·.bare = (Expr.array q es).bare) := by
  have hfront : Front (fun c => decide (c.kind = .type) = false) (ds ++ [t] ++ us) := by
    cases es with
    | nil =>
      obtain rfl : ds = [] := List.map_eq_nil_iff.1 hds
      have hk : t.kind = .op := Token.kind_of_lexeme ht
      exact .cons (by simp [hk])
    | cons e es =>
      rw [yieldsOf, listed] at hds
      obtain ⟨xs, ys, rfl, hxs, -⟩ := exists_of_mul hds
      rw [List.append_assoc, List.append_assoc]
      refine (front_starts (he e List.mem_cons_self) hxs _).imp fun u hu => ?_
      exact decide_eq_false hu.kind_ne_type
  have hs : t.spells "]" = true := Token.spells_of_lexeme ht (by decide)
  refine .look (seesKind_eq hfront) ?_
  rw [if_neg Bool.false_ne_true]
  refine .bind (parses_itemsUntil h (by simp) hs he hds hn) fun as has => .expect hs (.pure ?_)
  exact congrArg (Expr.array .unknown) has

theorem front_type {u : TypeExpr} (hu : u.OpensWithPrim) {ds : List Token}
    (hds : ds.map Token.lexeme ∈ u.yields) (us : List Token) :
    Front (fun c => c.kind = .type) (ds ++ us) := by
  induction u generalizing ds us with
  | named p name =>
    obtain ⟨c, rfl, hc⟩ := exists_of_single hds
    exact .cons (Token.kind_of_lexeme hc)
  | optional p base ih =>
    obtain ⟨xs, ys, rfl, hxs, -⟩ := exists_of_mul hds
    rw [List.append_assoc]
    exact ih hu hxs _
  | array | dict | ref | unknown | absent => exact hu.elim

theorem parses_bracketed_type {u : TypeExpr} (hu : u.OpensWithPrim) (hg : u.Graded) {ds us : List Token}
    (hds : ds.map Token.lexeme ∈ u.yields) {t : Token} (ht : t.lexeme = .ofText "]") (p q : Pos) :
    Parses (bracketed inner p) (ds ++ [t]) us (·.bare = (Expr.emptyArray q u).bare) := by
  have hfront : Front (fun c => decide (c.kind = .type) = true) (ds ++ [t] ++ us) := by
    rw [List.append_assoc]
    exact (front_type hu hds _).imp fun c hc => decide_eq_true hc
  refine .look (seesKind_eq hfront) ?_
  rw [if_pos rfl]
  refine .bind (recoversType_typeExpr _ u ds _ hg hds le_rfl ?_) fun v hv => ?_
  · exact .cons (not_spells_of_lexeme ht (by decide))
  · refine .expect (Token.spells_of_lexeme ht (by decide)) (.pure ?_)
    exact congrArg (Expr.emptyArray .unknown) hv

theorem parses_dictLiteral (h : Recovers n .coalesce inner) {es : List Entry} {p : Pos}
    (hk : ∀ e ∈ es, e.key.Graded) (hv : ∀ e ∈ es, e.value.Graded) {c t : Token} {ds us : List Token}
    (hc : c.spells "\x7b" = true) (hds : ds.map Token.lexeme ∈ listedWithComma (yieldsOfEntries es))
    (hn : ds.length ≤ n) (ht : t.spells "\x7d" = true) :
    Parses (dictLiteral inner) (c :: (ds ++ [t])) us (·.bare = (Expr.dict p es).bare) := by
  refine .expect hc (.left (.bind (parses_entries h ht hk hv hds hn (by simp)) fun as has => ?_))
  refine .expect ht (.pure ?_)
  exact congrArg (Expr.dict .unknown) has

section Openers

variable {c : Token} {ds us : List Token} {R : Expr → Prop}

theorem parses_paren (hc : c.lexeme = .ofText "(") (h : Parses (parenthesized inner c.pos) ds us R) :
    Parses (primaryWith inner) (c :: ds) us R := by
  have hk : c.kind = .op := Token.kind_of_lexeme hc
  refine .current ?_
  simp only [hk]
  refine .skipAny (.cons (not_spells_any hc (by decide))) ?_
  refine .skip (.cons (not_spells_of_lexeme hc (by decide))) ?_
  exact .take (Token.spells_of_lexeme hc (by decide)) h

theorem parses_bracket (hc : c.lexeme = .ofText "[") (h : Parses (bracketed inner c.pos) ds us R) :
    Parses (primaryWith inner) (c :: ds) us R := by
  have hk : c.kind = .op := Token.kind_of_lexeme hc
  refine .current ?_
  simp only [hk]
  refine .skipAny (.cons (not_spells_any hc (by decide))) ?_
  refine .skip (.cons (not_spells_of_lexeme hc (by decide))) ?_
  refine .skip (.cons (not_spells_of_lexeme hc (by decide))) ?_
  exact .take (Token.spells_of_lexeme hc (by decide)) h

theorem parses_brace (hc : c.lexeme = .ofText "\x7b") (h : Parses (dictLiteral inner) (c :: ds) us R) :
    Parses (primaryWith inner) (c :: ds) us R := by
  have hk : c.kind = .op := Token.kind_of_lexeme hc
  refine .current ?_
  simp only [hk]
  refine .skipAny (.cons (not_spells_any hc (by decide))) ?_
  refine .skip (.cons (not_spells_of_lexeme hc (by decide))) ?_
  refine .skip (.cons (not_spells_of_lexeme hc (by decide))) ?_
  refine .skip (.cons (not_spells_of_lexeme hc (by decide))) ?_
  refine .look (sees_eq (.cons (Token.spells_of_lexeme hc (by decide)))) ?_
  rw [if_pos rfl]
  exact h

end Openers

theorem not_primary_le_opLevel {op : BinaryOp} (hop : ∀ text, op ≠ .other text) :
    ¬Level.suffix ≤ opLevel op := by
  cases op with
  | other text => exact absurd rfl (hop text)
  | _ => decide

theorem recovers_primaryWith (h : Recovers n .coalesce inner) :
    Recovers (n + 1) .primary (primaryWith inner) := by
  rintro e cs us ⟨hg, hlv⟩ hcs hn hus
  cases hg with
  | num | str | var =>
    obtain ⟨c, rfl, hc⟩ := exists_of_single hcs
    have hk := Token.kind_of_lexeme hc
    refine .current ?_
    simp only [hk]
    refine .advance (by simp [hk]) (.pure ?_)
    rw [Token.text_of_lexeme hc]
    rfl
  | @bool p value =>
    obtain ⟨c, rfl, hc⟩ := exists_of_single hcs
    have hk : c.kind = .keyword := by
      rw [Token.kind_of_lexeme hc]
      cases value <;> decide
    refine .current ?_
    simp only [hk]
    refine .takeAny ?_ (Token.spells_of_lexeme hc ?_) (.pure ?_)
    · cases value <;> decide
    · cases value <;> decide
    · rw [Token.text_of_lexeme hc]
      cases value <;> rfl
  | @emptyOptional p u hu =>
    obtain ⟨c, ds, rfl, hc, hds⟩ := exists_of_word_mul hcs
    have hk : c.kind = .keyword := Token.kind_of_lexeme hc
    refine .current ?_
    simp only [hk]
    refine .skipAny (.cons (not_spells_any hc (by decide))) ?_
    refine .take (Token.spells_of_lexeme hc (by decide)) ?_
    refine .last (recoversType_typeExpr _ u ds us hu hds le_rfl ?_) fun v hv => .pure ?_
    · exact hus.imp fun t ht => ht .primary (Level.le_refl _) "?" (by decide)
    · exact congrArg (Expr.emptyOptional .unknown) hv
  | @paren p e he =>
    rw [Expr.yields, mul_assoc] at hcs
    obtain ⟨c, cs, rfl, hc, hcs⟩ := exists_of_word_mul hcs
    obtain ⟨ds, d, rfl, hds, hd⟩ := exists_of_mul_word hcs
    simp only [List.length_cons, List.length_append] at hn
    have hlist : ds.map Token.lexeme ∈ listed (yieldsOf [e]) := by
      simpa [yieldsOf, listed] using hds
    have hclose : d.spells ")" = true := Token.spells_of_lexeme hd (by decide)
    exact parses_paren hc (parses_parenthesized h (by simpa using he) hlist (by omega) hclose _ p)
  | @tuple p es hlen hes =>
    rw [Expr.yields, mul_assoc] at hcs
    obtain ⟨c, cs, rfl, hc, hcs⟩ := exists_of_word_mul hcs
    obtain ⟨ds, d, rfl, hds, hd⟩ := exists_of_mul_word hcs
    simp only [List.length_cons, List.length_append] at hn
    have hclose : d.spells ")" = true := Token.spells_of_lexeme hd (by decide)
    -- parentheses around one expression only group it
    rcases es with _ | ⟨e, _ | ⟨e', es⟩⟩
    · simp at hlen
    · simp at hlen
    · exact parses_paren hc (parses_parenthesized h hes hds (by omega) hclose _ p)
  | @array p es hes =>
    rw [Expr.yields, mul_assoc] at hcs
    obtain ⟨c, cs, rfl, hc, hcs⟩ := exists_of_word_mul hcs
    obtain ⟨ds, d, rfl, hds, hd⟩ := exists_of_mul_word hcs
    simp only [List.length_cons, List.length_append] at hn
    exact parses_bracket hc (parses_bracketed_items h hes hds (by omega) hd _ p)
  | @emptyArray p u hu gu =>
    rw [Expr.yields, mul_assoc] at hcs
    obtain ⟨c, cs, rfl, hc, hcs⟩ := exists_of_word_mul hcs
    obtain ⟨ds, d, rfl, hds, hd⟩ := exists_of_mul_word hcs
    exact parses_bracket hc (parses_bracketed_type hu gu hds hd _ p)
  | @dict p es hk hv =>
    rw [Expr.yields, mul_assoc] at hcs
    obtain ⟨c, cs, rfl, hc, hcs⟩ := exists_of_word_mul hcs
    obtain ⟨ds, d, rfl, hds, hd⟩ := exists_of_mul_word hcs
    simp only [List.length_cons, List.length_append] at hn
    refine parses_brace hc (parses_dictLiteral h hk hv ?_ hds (by omega) ?_)
    · exact Token.spells_of_lexeme hc (by decide)
    · exact Token.spells_of_lexeme hd (by decide)
  | binary hop => exact absurd (Level.le_trans (by decide) hlv) (not_primary_le_opLevel hop)
  | unary => exact absurd hlv (by decide : ¬Level.primary ≤ .unary)
  | call | member => exact absurd hlv (by decide : ¬Level.primary ≤ .suffix)

end Primary

/-! ### Operators -/

section Operators

variable {inner operand : Parser Expr} {n : Nat} {us : List Token}

theorem bare_binary {a b l r : Expr} {op op' : BinaryOp} {p : Pos} (hop : op = op') (ha : a.bare = l.bare)
    (hb : b.bare = r.bare) : (binary a op b).bare = (Expr.binary p op' l r).bare := by
  subst hop
  exact congrArg₂ (Expr.binary .unknown op) ha hb

theorem postfixTail_stop (hus : Front (Ends .suffix) us) (k : Nat) (e : Expr) :
    postfixTail inner k e us = .ok e us := by
  cases k with
  | zero => rfl
  | succ k =>
    have hstop : Front (fun t => ∀ s ∈ [".", "?.", "("], t.spells s = false) us :=
      hus.imp fun t ht => ht .suffix (Level.le_refl _)
    refine (skipAny_eq (hstop.imp fun t ht s hs => ht s ?_)).trans ?_
    · exact List.mem_append_left ["("] hs
    · exact skip_eq (hstop.imp fun t ht => ht "(" (by decide))

theorem enters_postfixTail (h : Recovers n .coalesce inner) {e : Expr} (he : e.Fits .suffix)
    {cs : List Token} (hcs : cs.map Token.lexeme ∈ e.yields) (hn : cs.length ≤ n + 1)
    (hus : Front (Ends .primary) us) :
    Enters (postfixWith inner) cs us (postfixTail inner) (·.bare = e.bare) := by
  obtain ⟨hg, hlv⟩ := he
  have hg' := hg
  induction hg generalizing cs us with
  | @call p f args hf gf ga ihf iha =>
    simp only [Expr.yields, mul_assoc] at hcs
    obtain ⟨fs, cs, rfl, hfs, hcs⟩ := exists_of_mul hcs
    obtain ⟨c, cs, rfl, hc, hcs⟩ := exists_of_word_mul hcs
    obtain ⟨as, d, rfl, has, hd⟩ := exists_of_mul_word hcs
    simp only [List.length_cons, List.length_append] at hn
    have hopen : c.spells "(" = true := Token.spells_of_lexeme hc (by decide)
    have hclose : d.spells ")" = true := Token.spells_of_lexeme hd (by decide)
    have hnext : Ends .primary c := ends_of_joiner (l := .suffix) hopen (by decide) (by decide)
    refine Enters.step (ihf hfs (by omega) (.cons hnext) hf gf) (List.cons_ne_nil _ _) fun k a ha hk => ?_
    refine .of_eq (skipAny_eq (.cons (not_spells_any hc (by decide)))) (.of_eq (take_eq hopen) ?_)
    refine .bind (parses_itemsUntil h (by simp) hclose ga has (by omega)) fun bs hbs => ?_
    refine .expect hclose (.again hk ?_)
    exact congrArg₂ (fun f as => Expr.call .unknown f (some as)) ha hbs
  | @member p o op name hop hname ho go ih =>
    simp only [Expr.yields, mul_assoc] at hcs
    obtain ⟨os, cs, rfl, hos, hcs⟩ := exists_of_mul hcs
    obtain ⟨c, cs, rfl, hc, hcs⟩ := exists_of_word_mul hcs
    obtain ⟨d, rfl, hd⟩ := exists_of_single hcs
    simp only [List.length_cons, List.length_append] at hn
    have hops : ∀ op ∈ [AccessOp.direct, .ifPresent], Kind.ofText op.text ≠ .eof ∧
        op.text ∈ Level.suffix.joiners ∧ op.text ∈ [".", "?."] ∧ AccessOp.ofText op.text = op := by decide
    obtain ⟨hkind, hjoin, hdots, hof⟩ := hops op hop
    have hdot : c.spells op.text = true := Token.spells_of_lexeme hc hkind
    have hnext : Ends .primary c := ends_of_joiner hdot hjoin (by decide)
    refine Enters.step (ih hos (by omega) (.cons hnext) ho go) (List.cons_ne_nil _ _) fun k a ha hk => ?_
    refine .takeAny hdots hdot (.last (parses_expectIdent (Token.kind_of_lexeme hd)) fun x hx => ?_)
    refine .again hk ?_
    rw [hx, Token.text_of_lexeme hc, Token.text_of_lexeme hd]
    exact congrArg₂ (fun o op => Expr.member .unknown o (some op) _) ha hof
  | binary hop => exact absurd hlv (not_primary_le_opLevel hop)
  | unary => exact absurd hlv (by decide : ¬Level.suffix ≤ .unary)
  | _ => exact (recovers_primaryWith h _ cs us ⟨hg', Level.le_refl _⟩ hcs hn hus).enters

theorem recovers_postfixWith (h : Recovers n .coalesce inner) :
    Recovers (n + 1) .suffix (postfixWith inner) := by
  intro e cs us he hcs hn hus
  refine (enters_postfixTail h he hcs hn ?_).parses (postfixTail_stop hus)
  exact hus.imp fun t ht => ht.mono (by decide)

theorem ofText_text {op : BinaryOp} (hop : ∀ text, op ≠ .other text) : BinaryOp.ofText op.text = op := by
  cases op with
  | other text => exact absurd rfl (hop text)
  | _ => rfl

theorem eq_pow_of_level {op : BinaryOp} (hop : ∀ text, op ≠ .other text)
    (hlv : Level.unary ≤ opLevel op) : op = .pow := by
  revert hlv
  cases op with
  | other text => exact absurd rfl (hop text)
  | _ => decide

theorem parses_powerOf {unary : Parser Expr} {k : Nat} (ho : Recovers n .suffix operand)
    (hu : Recovers k .unary unary) {e : Expr} {cs : List Token} (he : e.Fits .power)
    (hcs : cs.map Token.lexeme ∈ e.yields) (hn : cs.length ≤ n) (hk : cs.length ≤ k + 1)
    (hus : Front (Ends .unary) us) : Parses (powerOf operand unary) cs us (·.bare = e.bare) := by
  rcases he.graded.level_cases with ⟨p, op, l, r, rfl, hop, hl, hr⟩ | ⟨p, op, a, rfl, -⟩ | hlv
  · obtain rfl := eq_pow_of_level hop (Level.le_trans (by decide) he.level)
    rw [Expr.yields, mul_assoc] at hcs
    obtain ⟨ls, cs, rfl, hls, hcs⟩ := exists_of_mul hcs
    obtain ⟨c, rs, rfl, hc, hrs⟩ := exists_of_word_mul hcs
    rw [List.length_append, List.length_cons] at hn hk
    have hs : c.spells "**" = true := Token.spells_of_lexeme hc (by decide)
    have hnext : Ends .suffix c := ends_of_joiner (l := .power) hs (by decide) (by decide)
    refine .bind (ho l ls _ hl hls (by omega) (.cons hnext)) fun a ha => .take hs ?_
    refine .last (hu r rs us hr hrs (by omega) hus) fun b hb => .pure ?_
    exact bare_binary rfl ha hb
  · exact absurd he.level (by decide : ¬Level.power ≤ .unary)
  · refine .last (ho e cs us ⟨he.graded, hlv⟩ hcs hn ?_) fun a ha => .skip ?_ (.pure ha)
    · exact hus.imp fun t ht => ht.mono (by decide)
    · exact hus.imp fun t ht => ht .power (by decide) "**" (by decide)

theorem recovers_zero {lv : Level} {p : Parser Expr} : Recovers 0 lv p := by
  intro e cs us he hcs hn
  rw [List.length_eq_zero_iff.1 (Nat.le_zero.1 hn)] at hcs
  exact absurd hcs e.nil_notMem_yields

theorem recovers_unaryWithin (h : Recovers n .suffix operand) (k : Nat) :
    Recovers (min n k) .unary (unaryWithin operand k) := by
  induction k with
  | zero =>
    rw [Nat.min_zero]
    exact recovers_zero
  | succ k ih =>
    intro e cs us he hcs hn hus
    have hpower (hlv : Level.power ≤ e.level) :
        Parses (unaryWithin operand (k + 1)) cs us (·.bare = e.bare) := by
      refine .skipAny ?_ (parses_powerOf h ih ⟨he.graded, hlv⟩ hcs (by omega) (by omega) hus)
      refine (front_starts he.graded hcs us).imp fun t ht s hs => ?_
      have hsigns : ∀ s ∈ ["-", "!"], ¬Starts .power (.ofText s) := by decide
      exact (ht.mono hlv).spells_eq_false (hsigns s hs)
    rcases he.graded.level_cases with ⟨p, op, l, r, rfl, hop, -⟩ | ⟨p, op, a, rfl, hop, ha⟩ | hlv
    · obtain rfl := eq_pow_of_level hop he.level
      exact hpower (Level.le_refl _)
    · obtain ⟨c, ds, rfl, hc, hds⟩ := exists_of_word_mul hcs
      rw [List.length_cons] at hn
      have hops : ∀ op ∈ [UnaryOp.neg, .not], Kind.ofText op.text ≠ .eof ∧ op.text ∈ ["-", "!"] ∧
          UnaryOp.ofText op.text = op := by decide
      obtain ⟨hkind, hsign, hof⟩ := hops op hop
      refine .takeAny hsign (Token.spells_of_lexeme hc hkind) ?_
      refine .last (ih a ds us ha hds (by omega) hus) fun b hb => .pure ?_
      rw [Token.text_of_lexeme hc]
      exact congrArg₂ (Expr.unary .unknown) hof hb
    · exact hpower (Level.le_trans (by decide) hlv)

theorem recovers_unaryWith (h : Recovers n .coalesce inner) : Recovers (n + 1) .unary (unaryWith inner) := by
  intro e cs us he hcs hn hus
  refine .left (recovers_unaryWithin (recovers_postfixWith h) _ e cs us he hcs ?_ hus)
  rw [List.length_append]
  omega

theorem chain_stop {ops : List String} (hus : Front (fun t => ∀ s ∈ ops, t.spells s = false) us) (k : Nat)
    (e : Expr) : chain ops operand k e us = .ok e us := by
  cases k with
  | zero => rfl
  | succ k => exact skipAny_eq hus

/-- A level whose operations join from the left, with operands of the next level on the right. -/
structure JoinsLeft (lv right : Level) : Prop where
  next : right.rank = lv.rank + 1
  loose : right ≤ .unary
  left_eq : ∀ op, opLevel op = lv → leftLevel op = lv
  right_eq : ∀ op, opLevel op = lv → rightLevel op = right

theorem JoinsLeft.level_eq {lv right : Level} (h : JoinsLeft lv right) {l : Level} (hl : lv ≤ l)
    (hr : ¬right ≤ l) : l = lv := by
  have hl : lv.rank ≤ l.rank := hl
  have hr : ¬right.rank ≤ l.rank := hr
  have hnext := h.next
  exact Level.rank_inj (by omega)

theorem enters_chain {lv right : Level} (hj : JoinsLeft lv right) (h : Recovers n right operand) {e : Expr}
    (he : e.Fits lv) {cs : List Token} (hcs : cs.map Token.lexeme ∈ e.yields) (hn : cs.length ≤ n)
    (hus : Front (Ends right) us) :
    Enters (leftAssoc lv.joiners operand) cs us (chain lv.joiners operand) (·.bare = e.bare) := by
  obtain ⟨hg, hlv⟩ := he
  have hg' := hg
  induction hg generalizing cs us with
  | @binary p op l r hop hl hr gl gr ihl ihr =>
    by_cases hright : right ≤ opLevel op
    · exact (h _ cs us ⟨hg', hright⟩ hcs hn hus).enters
    have hlevel : opLevel op = lv := hj.level_eq hlv hright
    rw [hj.left_eq op hlevel] at hl
    rw [hj.right_eq op hlevel] at hr
    rw [Expr.yields, mul_assoc] at hcs
    obtain ⟨ls, cs, rfl, hls, hcs⟩ := exists_of_mul hcs
    obtain ⟨c, rs, rfl, hc, hrs⟩ := exists_of_word_mul hcs
    rw [List.length_append, List.length_cons] at hn
    have hs : c.spells op.text = true := Token.spells_of_lexeme hc (by rw [kind_of_op hop]; simp)
    have hjoin : op.text ∈ lv.joiners := hlevel ▸ text_mem_joiners hop
    have hnext : Ends right c := ends_of_joiner hs hjoin (hlevel ▸ hright)
    refine Enters.step (ihl hls (by omega) (.cons hnext) hl gl) (List.cons_ne_nil _ _) fun k a ha hk => ?_
    refine .takeAny hjoin hs (.last (h r rs us ⟨gr, hr⟩ hrs (by omega) hus) fun b hb => .again hk ?_)
    rw [Token.text_of_lexeme hc]
    exact bare_binary (ofText_text hop) ha hb
  | unary => exact (h _ cs us ⟨hg', hj.loose⟩ hcs hn hus).enters
  | call | member =>
    have hle : right ≤ .suffix := Level.le_trans hj.loose (by decide)
    exact (h _ cs us ⟨hg', hle⟩ hcs hn hus).enters
  | _ =>
    have hle : right ≤ .primary := Level.le_trans hj.loose (by decide)
    exact (h _ cs us ⟨hg', hle⟩ hcs hn hus).enters

theorem recovers_leftAssoc {lv right : Level} (hj : JoinsLeft lv right) (h : Recovers n right operand) :
    Recovers n lv (leftAssoc lv.joiners operand) := by
  intro e cs us he hcs hn hus
  refine (enters_chain hj h he hcs hn ?_).parses (chain_stop ?_)
  · refine hus.imp fun t ht => ht.mono ?_
    have hnext := hj.next
    exact (by omega : lv.rank ≤ right.rank)
  · exact hus.imp fun t ht => ht lv (Level.le_refl _)

/-- The levels whose operations join from the left, each with the next one. -/
theorem joinsLeft {lv right : Level}
    (h : (lv, right) ∈ [(.product, .unary), (.sum, .product), (.and, .comparison), (Level.or, Level.and)]) :
    JoinsLeft lv right := by
  simp only [List.mem_cons, Prod.mk.injEq, List.not_mem_nil, or_false] at h
  rcases h with ⟨rfl, rfl⟩ | ⟨rfl, rfl⟩ | ⟨rfl, rfl⟩ | ⟨rfl, rfl⟩ <;>
    refine ⟨rfl, by decide, ?_, ?_⟩ <;> intro op <;> cases op <;> simp [opLevel, leftLevel, rightLevel]

theorem recovers_sumWith (h : Recovers n .coalesce inner) : Recovers (n + 1) .sum (sumWith inner) :=
  have hproduct : JoinsLeft .product .unary := joinsLeft (by simp)
  have hsum : JoinsLeft .sum .product := joinsLeft (by simp)
  recovers_leftAssoc hsum (recovers_leftAssoc hproduct (recovers_unaryWith h))

theorem comparison_of_level {op : BinaryOp} (hop : ∀ text, op ≠ .other text)
    (hlv : Level.comparison ≤ opLevel op) (hsum : ¬Level.sum ≤ opLevel op) :
    leftLevel op = .sum ∧ rightLevel op = .sum ∧ op.text ∈ Level.comparison.joiners := by
  revert hlv hsum
  cases op with
  | other text => exact absurd rfl (hop text)
  | _ => decide

theorem recovers_compareWith (h : Recovers n .coalesce inner) :
    Recovers (n + 1) .comparison (compareWith inner) := by
  intro e cs us he hcs hn hus
  by_cases hsum : Level.sum ≤ e.level
  · have hends : Front (Ends .sum) us := hus.imp fun t ht => ht.mono (by decide)
    refine .last (recovers_sumWith h e cs us ⟨he.graded, hsum⟩ hcs hn hends) fun a ha => ?_
    obtain ⟨t, ts, rfl, ht⟩ := hus
    refine .look rfl ?_
    rw [if_neg fun hop => ?_]
    · exact .pure ha
    · simp only [Bool.and_eq_true, decide_eq_true_eq] at hop
      have hs : t.spells t.text = true := Token.spells_iff.2 ⟨rfl, by simp [hop.1], by simp [hop.1]⟩
      have hs' := ht .comparison (Level.le_refl _) t.text (List.contains_iff_mem.1 hop.2)
      exact absurd hs (Bool.eq_false_iff.1 hs')
  · have hloose : ¬Level.unary ≤ e.level := fun hle => hsum (Level.le_trans (by decide) hle)
    obtain ⟨p, op, l, r, rfl, hop, hl, hr⟩ := he.graded.binary_of_loose hloose
    obtain ⟨hleft, hright, hmem⟩ := comparison_of_level hop he.level hsum
    rw [hleft] at hl
    rw [hright] at hr
    rw [Expr.yields, mul_assoc] at hcs
    obtain ⟨ls, cs, rfl, hls, hcs⟩ := exists_of_mul hcs
    obtain ⟨c, rs, rfl, hc, hrs⟩ := exists_of_word_mul hcs
    rw [List.length_append, List.length_cons] at hn
    have hk : c.kind = .op := (Token.kind_of_lexeme hc).trans (kind_of_op hop)
    have hs : c.spells op.text = true := Token.spells_of_lexeme hc (by rw [kind_of_op hop]; simp)
    have hnext : Ends .sum c := ends_of_joiner hs hmem (by decide)
    refine .bind (recovers_sumWith h l ls _ hl hls (by omega) (.cons hnext)) fun a ha => .current ?_
    have htext : c.text ∈ ["<", "<=", "==", "!=", ">=", ">"] := by
      rw [Token.text_of_lexeme hc]
      exact hmem
    rw [if_pos (Bool.and_eq_true_iff.2 ⟨decide_eq_true hk, List.contains_iff_mem.2 htext⟩)]
    refine .advance (by simp [hk]) (.last (recovers_sumWith h r rs us hr hrs (by omega) ?_) fun b hb => ?_)
    · exact hus.imp fun t ht => ht.mono (by decide)
    · refine .pure ?_
      rw [Token.text_of_lexeme hc]
      exact bare_binary (ofText_text hop) ha hb

theorem recovers_orWith (h : Recovers n .coalesce inner) : Recovers (n + 1) .or (orWith inner) :=
  have hand : JoinsLeft .and .comparison := joinsLeft (by simp)
  have hor : JoinsLeft .or .and := joinsLeft (by simp)
  recovers_leftAssoc hor (recovers_leftAssoc hand (recovers_compareWith h))

theorem eq_coalesce_of_level {op : BinaryOp} (hop : ∀ text, op ≠ .other text)
    (hor : ¬Level.or ≤ opLevel op) : op = .coalesce := by
  revert hor
  cases op with
  | other text => exact absurd rfl (hop text)
  | _ => decide

theorem recovers_coalesceWithin (h : Recovers n .or operand) (k : Nat) :
    Recovers (min n k) .coalesce (coalesceWithin operand k) := by
  induction k with
  | zero =>
    rw [Nat.min_zero]
    exact recovers_zero
  | succ k ih =>
    intro e cs us he hcs hn hus
    by_cases hor : Level.or ≤ e.level
    · refine .last (h e cs us ⟨he.graded, hor⟩ hcs (by omega) ?_) fun a ha => .skip ?_ (.pure ha)
      · exact hus.imp fun t ht => ht.mono (by decide)
      · exact hus.imp fun t ht => ht .coalesce (Level.le_refl _) "??" (by decide)
    · have hloose : ¬Level.unary ≤ e.level := fun hle => hor (Level.le_trans (by decide) hle)
      obtain ⟨p, op, l, r, rfl, hop, hl, hr⟩ := he.graded.binary_of_loose hloose
      obtain rfl := eq_coalesce_of_level hop hor
      rw [Expr.yields, mul_assoc] at hcs
      obtain ⟨ls, cs, rfl, hls, hcs⟩ := exists_of_mul hcs
      obtain ⟨c, rs, rfl, hc, hrs⟩ := exists_of_word_mul hcs
      rw [List.length_append, List.length_cons] at hn
      have hs : c.spells "??" = true := Token.spells_of_lexeme hc (by decide)
      have hnext : Ends .or c := ends_of_joiner (l := .coalesce) hs (by decide) (by decide)
      refine .bind (h l ls _ hl hls (by omega) (.cons hnext)) fun a ha => .take hs ?_
      refine .last (ih r rs us hr hrs (by omega) hus) fun b hb => .pure ?_
      exact bare_binary rfl ha hb

end Operators

/-! ### Whole expressions -/

theorem recovers_exprWithin (n : Nat) : Recovers n .coalesce (exprWithin n) := by
  induction n with
  | zero => exact recovers_zero
  | succ n ih =>
    intro e cs us he hcs hn hus
    refine .left (recovers_coalesceWithin (recovers_orWith ih) _ e cs us he hcs ?_ hus)
    rw [List.length_append]
    omega

/-- An expression of the grammar is read back from its tokens up to the places, and nothing behind them is
touched, if the token behind them cannot go on with an expression or a type. -/
theorem expr_reads_back {e : Expr} (he : e.Graded) {cs rest : List Token} {t : Token}
    (hcs : cs.map Token.lexeme ∈ e.yields) (ht : Ends .coalesce t) :
    ∃ e', expr (cs ++ t :: rest) = .ok e' (t :: rest) ∧ e'.bare = e.bare := by
  refine Parses.left (recovers_exprWithin _ e cs (t :: rest) ⟨he, Nat.zero_le _⟩ hcs ?_ (.cons ht))
  simp

/-- `-x ** 2` with its minus sign outermost. -/
def negatedSquare : Expr :=
  .unary .unknown .neg (.binary .unknown .pow (.var .unknown "x") (.num .unknown "2"))

def negatedSquareTokens : List Token :=
  [⟨.op, "-", ⟨1, 1⟩⟩, ⟨.ident, "x", ⟨1, 2⟩⟩, ⟨.op, "**", ⟨1, 4⟩⟩, ⟨.number, "2", ⟨1, 7⟩⟩]

theorem expr_reads_back_negatedSquare :
    ∃ e', expr (negatedSquareTokens ++ .endAt ⟨1, 8⟩ :: []) = .ok e' (.endAt ⟨1, 8⟩ :: []) ∧
      e'.bare = negatedSquare.bare := by
  have hgraded : negatedSquare.Graded := by
    refine .unary (by decide) (by decide : Level.unary ≤ .power) (.binary (by simp) ?_ ?_ ?_ ?_)
    · exact (by decide : Level.suffix ≤ .primary)
    · exact (by decide : Level.unary ≤ .primary)
    · exact .var (by decide)
    · exact .num (by decide)
  have hyields : negatedSquareTokens.map Token.lexeme ∈ negatedSquare.yields := by
    refine ⟨[⟨.op, "-"⟩], rfl, _, ⟨[⟨.ident, "x"⟩, ⟨.op, "**"⟩], ?_, [⟨.number, "2"⟩], rfl, rfl⟩, rfl⟩
    exact ⟨[⟨.ident, "x"⟩], rfl, [⟨.op, "**"⟩], rfl, rfl⟩
  have hends : Ends .coalesce (.endAt ⟨1, 8⟩) := fun l _ s _ => by
    simp [Token.spells, Token.endAt]
  exact expr_reads_back hgraded hyields hends

end Snack.Parser
