import Snack.Proofs.Parser.Takes

/-! Every parser takes the tokens that its value spans. For each recursion there is a lemma about one turn,
and from it one about any number of turns that is enough: the bounds never decide what is read. -/

namespace Snack.Parser

open Snack.Tree

/-! ### Lists -/

section Lists

variable {α : Type} {R : α → List Token → Prop} {item item' : Parser α} {s : String} {n : Nat}

theorem takes_itemTurn {again again' : Parser (List α)} (h : Takes n item item' R)
    (hagain : Takes n again again' (AfterCommas R)) :
    Takes (n + 1) (itemTurn item again) (itemTurn item' again') (AfterCommas R) :=
  .take (fun _ ht => h.next fun _ _ ha => hagain.last fun _ _ has => .cons ht ha has) (.pure .nil)

theorem unrolled_itemTurn (h : Takes n item item' R) :
    Unrolled n (itemTurn item) (itemTurn item') fun p q => Takes n p q (AfterCommas R) :=
  unrolled_takes fun _ hk _ _ => takes_itemTurn (h.mono (Nat.le_of_lt hk))

theorem takes_moreItems (h : Takes n item item' R) :
    Takes n (left >>= moreItems item) (left >>= moreItems item') (AfterCommas R) :=
  .bounded (fun _ hk => unrolled_itemTurn (h.mono hk)) (fun _ => rfl) fun _ => rfl

theorem takes_items (h : Takes n item item' R) :
    Takes n (items item) (items item') fun as cs => as ≠ [] ∧ Separated R as cs :=
  h.next fun _ _ ha => (takes_moreItems h).last fun _ _ has => ⟨by simp, .cons ha has⟩

theorem takes_itemsUntil (close : String) (h : Takes n item item' R) :
    Takes n (itemsUntil close item) (itemsUntil close item') (Separated R) :=
  .look (peeks_sees close) fun _ => .ite (fun _ => .pure .nil) fun _ => (takes_items h).imp fun _ _ h => h.2

end Lists

/-! ### Types -/

section Types

variable {n : Nat} {R : TypeExpr → List Token → Prop} {inner inner' : Parser TypeExpr}

theorem onward_markTurn {p : Pos} {again again' : TypeExpr → Parser TypeExpr}
    (hR : ∀ type cs t, R type cs → t.spells "?" = true → R (.optional p type) (cs ++ [t]))
    (hagain : Onward n again again' R) : Onward (n + 1) (markTurn p again) (markTurn p again') R := by
  intro type cs htype
  refine .take (fun t ht => ?_) (.pure (by simpa using htype))
  simpa using hagain _ _ (hR type cs t htype ht)

theorem unrolled_markTurn {p : Pos}
    (hR : ∀ type cs t, R type cs → t.spells "?" = true → R (.optional p type) (cs ++ [t])) :
    Unrolled n (markTurn p) (markTurn p) fun f g => Onward n f g R :=
  unrolled_onward fun _ _ _ _ => onward_markTurn hR

/-- The wrapped types start where the type does. -/
theorem onward_optionalMarks (p : Pos) :
    Onward n (fun type => left >>= fun m => optionalMarks p m type)
      (fun type => left >>= fun m => optionalMarks p m type)
      fun type cs => type.IsReadFrom cs ∧ StartsAt p cs := by
  refine .bounded (fun _ _ => unrolled_markTurn fun type cs t h ht => ⟨⟨?_, fun hp => ?_⟩, h.2.append _⟩)
    (fun _ => rfl) fun _ => rfl
  · exact .optional h.2 h.1.spans ht
  · have hbase := h.1.sound (Token.proper_append.1 hp).1
    exact ⟨.optional hbase.graded, .optional hbase.formed⟩

theorem takes_typeWith (h : Takes n inner inner' TypeExpr.IsReadFrom) :
    Takes (n + 1) (typeWith inner) (typeWith inner') TypeExpr.IsReadFrom := by
  refine .current fun t => .sees (.sees ?_)
  have hmarks : ∀ {k} (base : TypeExpr) (cs), base.IsReadFrom (t :: cs) →
      Takes k (pure base >>= fun base => left >>= fun n => optionalMarks t.pos n base)
      (pure base >>= fun base => left >>= fun n => optionalMarks t.pos n base)
      fun type ds => type.IsReadFrom (t :: (cs ++ ds)) := fun base cs hb =>
    (onward_optionalMarks t.pos base (t :: cs) ⟨hb, startsAt_cons t cs⟩).imp fun _ _ h => h.1
  refine .ite (fun hk => ?_) fun _ => .ite (fun hs => ?_) fun _ => .ite (fun hs => ?_) fun _ =>
    .ite (fun hk => ?_) fun _ => ?_
  · refine .advance (by simp [hk]) (hmarks _ [] ⟨.named hk, fun hp => ?_⟩)
    have ht := (Token.proper_cons.1 hp).1
    exact ⟨.named (Token.ofText_of_kind ht hk nofun), .named (ht.2.type hk)⟩
  · refine .spelled hs (h.next fun base cs hb => .weaken (.expect fun u hu => ?_))
    have harray : (TypeExpr.array t.pos base).IsReadFrom (t :: (cs ++ [u])) := by
      refine ⟨.array hs hb.spans hu, fun hp => ?_⟩
      have hbase := hb.sound (Token.proper_append.1 (Token.proper_cons.1 hp).2).1
      exact ⟨.array hbase.graded, .array hbase.formed⟩
    simpa using hmarks _ _ harray
  · refine .spelled hs (h.next fun key cs hk => .weaken (.expect fun u hu => ?_))
    refine h.next fun value ds hv => .weaken (.expect fun v hv' => ?_)
    have hdict : (TypeExpr.dict t.pos key value).IsReadFrom (t :: (cs ++ u :: (ds ++ [v]))) := by
      refine ⟨.dict hs hk.spans hu hv.spans hv', fun hp => ?_⟩
      simp only [Token.proper_cons, Token.proper_append] at hp
      have hkey := hk.sound hp.2.1
      have hvalue := hv.sound hp.2.2.2.1
      exact ⟨.dict hkey.graded hvalue.graded, .dict hkey.formed hvalue.formed⟩
    simpa using hmarks _ _ hdict
  · refine .advance (by simp [hk]) (hmarks _ [] ⟨.ref hk, fun hp => ?_⟩)
    exact ⟨.ref (Token.ofText_of_kind (Token.proper_cons.1 hp).1 hk nofun), .ref⟩
  · exact (takes_failFor _).never.from t

theorem unrolled_typeWith : Unrolled n typeWith typeWith fun p q => Takes n p q TypeExpr.IsReadFrom :=
  unrolled_takes fun _ _ _ _ => takes_typeWith

theorem takes_typeExpr : Takes n typeExpr typeExpr TypeExpr.IsReadFrom :=
  .bounded (fun _ _ => unrolled_typeWith) (fun _ => rfl) fun _ => rfl

end Types

/-! ### Expressions -/

section Expressions

variable {n : Nat} {lv right : Level} {ops : List String} {R : Expr → List Token → Prop}
variable {inner inner' operand operand' again again' : Parser Expr}

theorem takes_entryTurn {again again' : Parser (List Entry)}
    (h : Takes (n + 1) inner inner' (Expr.IsReadFrom .coalesce))
    (hagain : Takes n again again' (Terminated (ReadFrom Entry.Spans Entry.Sound))) :
    Takes (n + 1) (entryTurn inner again) (entryTurn inner' again')
      (Terminated (ReadFrom Entry.Spans Entry.Sound)) := by
  refine .look (peeks_sees _) fun _ => .ite (fun _ => .pure .nil) fun _ => ?_
  refine h.step (fun _ _ hk => hk.spans.startsAt.ne_nil) fun key cs hk => .weaken (.expect fun t ht => ?_)
  refine h.weaken.next fun value ds hv => ?_
  have hentry : ReadFrom Entry.Spans Entry.Sound (Entry.mk key.pos key value) (cs ++ t :: ds) := by
    refine ⟨.mk hk.spans.startsAt hk.spans ht hv.spans, fun hp => ?_⟩
    simp only [Token.proper_cons, Token.proper_append] at hp
    exact ⟨hk.sound hp.1, hv.sound hp.2.2⟩
  refine .weaken (.take (fun u hu => hagain.last fun es fs hes => ?_) (.pure ?_))
  · simpa using Terminated.cons hentry hu hes
  · simpa using Terminated.last hentry

theorem unrolled_entryTurn (h : Takes n inner inner' (Expr.IsReadFrom .coalesce)) :
    Unrolled n (entryTurn inner) (entryTurn inner')
      fun p q => Takes n p q (Terminated (ReadFrom Entry.Spans Entry.Sound)) :=
  unrolled_takes fun _ hk _ _ => takes_entryTurn (h.mono hk)

theorem takes_dictLiteral (h : Takes n inner inner' (Expr.IsReadFrom .coalesce)) :
    Takes (n + 1) (dictLiteral inner) (dictLiteral inner') (Expr.IsReadFrom .primary) := by
  refine .expect fun t ht => ?_
  have hentries : Takes n (left >>= entries inner) (left >>= entries inner')
      (Terminated (ReadFrom Entry.Spans Entry.Sound)) :=
    .bounded (fun _ hk => unrolled_entryTurn (h.mono hk)) (fun _ => rfl) fun _ => rfl
  refine hentries.next fun es cs hes => .weaken (.expect fun u hu => .pure ⟨.dict ht hes.read.spans hu, fun hp => ?_⟩)
  simp only [Token.proper_cons, Token.proper_append] at hp
  have hes := hes.read.sound hp.2.1
  exact ⟨⟨.dict (fun e he => (hes e he).key.graded) fun e he => (hes e he).value.graded, Level.le_refl _⟩,
    .dict (fun e he => (hes e he).key.formed) fun e he => (hes e he).value.formed⟩

theorem takes_parenthesized {t : Token} (ht : t.spells "(" = true)
    (h : Takes n inner inner' (Expr.IsReadFrom .coalesce)) :
    Takes n (parenthesized inner t.pos) (parenthesized inner' t.pos)
      fun e cs => e.IsReadFrom .primary (t :: cs) := by
  refine h.next fun e cs he => (takes_moreItems h).next fun es ds hes => .weaken (.expect fun u hu => ?_)
  refine .pure ?_
  cases hes with
  | nil =>
    refine ⟨.paren ht he.spans hu, fun hp => ?_⟩
    simp only [Token.proper_cons, Token.proper_append] at hp
    have he := he.sound hp.2.1
    exact ⟨⟨.paren he.graded, Level.le_refl _⟩, .paren he.formed⟩
  | @cons v d ds' cs' ds'' hcomma hd hes =>
    have hitems := (Separated.cons he (.cons hcomma hd hes)).read
    refine ⟨by simpa using Expr.Spans.tuple ht hitems.spans hu, fun hp => ?_⟩
    have hitems := hitems.sound (by simp only [Token.proper_cons, Token.proper_append] at hp ⊢; grind)
    exact ⟨⟨.tuple (by simp) fun e he => (hitems e he).graded, Level.le_refl _⟩,
      .tuple fun e he => (hitems e he).formed⟩

theorem takes_bracketed {t : Token} (ht : t.spells "[" = true)
    (h : Takes n inner inner' (Expr.IsReadFrom .coalesce)) :
    Takes n (bracketed inner t.pos) (bracketed inner' t.pos) fun e cs => e.IsReadFrom .primary (t :: cs) := by
  refine .seesKind fun u => .ite (fun hk => ?_) fun _ => Takes.from ?_ u
  · have htype : TakesFrom u n typeExpr typeExpr fun type cs => type.IsReadFrom cs ∧ cs.head? = some u :=
      .starting ((takes_typeExpr.from u).imp fun _ _ hy => ⟨hy.spans.ne_nil, fun hu => ⟨hy, hu⟩⟩)
    refine htype.next fun type cs hy => .weaken (.expect fun v hv => .pure ?_)
    refine ⟨.emptyArray ht hy.1.spans hv, fun hp => ?_⟩
    simp only [Token.proper_cons, Token.proper_append] at hp
    have hu := hp.2.1 u (List.mem_of_mem_head? hy.2)
    have hopens := hy.1.spans.opensWithPrim hy.2 hu.1 (of_decide_eq_true hk)
    have htype := hy.1.sound hp.2.1
    exact ⟨⟨.emptyArray hopens htype.graded, Level.le_refl _⟩, .emptyArray htype.formed⟩
  · refine (takes_itemsUntil _ h).next fun es cs hes => .weaken (.expect fun u hu => .pure ?_)
    refine ⟨.array ht hes.read.spans hu, fun hp => ?_⟩
    simp only [Token.proper_cons, Token.proper_append] at hp
    have hes := hes.read.sound hp.2.1
    exact ⟨⟨.array fun e he => (hes e he).graded, Level.le_refl _⟩, .array fun e he => (hes e he).formed⟩

theorem takes_primaryWith (h : Takes n inner inner' (Expr.IsReadFrom .coalesce)) :
    Takes (n + 1) (primaryWith inner) (primaryWith inner') (Expr.IsReadFrom .primary) := by
  refine .current fun t => ?_
  split
  · next hk =>
    refine .advance (by simp [hk]) (.pure ⟨.num hk, fun hp => ?_⟩)
    have ht := (Token.proper_cons.1 hp).1
    exact ⟨⟨.num (Token.ofText_of_kind ht hk nofun), Level.le_refl _⟩, .num (ht.2.number hk)⟩
  · next hk => exact .advance (by simp [hk]) (.pure ⟨.str hk, fun _ => ⟨⟨.str, Level.le_refl _⟩, .str⟩⟩)
  · next hk =>
    refine .advance (by simp [hk]) (.pure ⟨.var hk, fun hp => ⟨⟨.var ?_, Level.le_refl _⟩, .var⟩⟩)
    exact Token.ofText_of_kind (Token.proper_cons.1 hp).1 hk nofun
  refine .seesAny (.ite (fun hs => ?_) fun _ => .sees (.ite (fun hs => ?_) fun _ => .sees (.ite
    (fun hs => ?_) fun _ => .sees (.ite (fun hs => ?_) fun _ => .sees (.ite (fun hs => ?_) fun _ => ?_)))))
  · obtain ⟨s, hmem, hs⟩ := List.any_eq_true.1 hs
    obtain rfl := (Token.spells_iff.1 hs).1
    refine .spelled hs (.pure ⟨.bool ?_, fun _ => ⟨⟨.bool, Level.le_refl _⟩, .bool⟩⟩)
    simp only [List.mem_cons, List.not_mem_nil, or_false] at hmem
    rcases hmem with htext | htext <;> simpa [htext, Keyword.text] using hs
  · refine .spelled hs (takes_typeExpr.last fun _ _ hy => ⟨.emptyOptional hs hy.spans, fun hp => ?_⟩)
    have hy := hy.sound (Token.proper_cons.1 hp).2
    exact ⟨⟨.emptyOptional hy.graded, Level.le_refl _⟩, .emptyOptional hy.formed⟩
  · exact .spelled hs (takes_parenthesized hs h)
  · exact .spelled hs (takes_bracketed hs h)
  · exact (takes_dictLiteral h).from t
  · exact (takes_failFor _).from t

/-- What a member or a call behind an expression keeps. -/
structure KeptBySuffix (R : Expr → List Token → Prop) : Prop where
  member : ∀ e cs t u, R e cs → t.text ∈ [".", "?."] → t.spells t.text = true → u.kind = .ident →
    R (.member e.pos e (some (.ofText t.text)) (some u.text)) (cs ++ [t, u])
  call : ∀ e cs args ds, R e cs → Between (Separated (Expr.IsReadFrom .coalesce)) "(" ")" args ds →
    R (.call e.pos e (some args)) (cs ++ ds)

theorem keptBySuffix_isReadFrom : KeptBySuffix (Expr.IsReadFrom .suffix) where
  member e cs t u he hop ht hu := by
    have hops : ∀ s ∈ [".", "?."], AccessOp.ofText s ∈ [.direct, .ifPresent] := by decide
    refine ⟨.member he.spans.startsAt he.spans (by rwa [AccessOp.text_ofText]) hu, fun hp => ?_⟩
    simp only [Token.proper_cons, Token.proper_append] at hp
    have he := he.sound hp.1
    exact ⟨⟨.member (hops _ hop) (Token.ofText_of_kind hp.2.2.1 hu nofun) he.level he.graded, Level.le_refl _⟩,
      .member (hops _ hop) (hp.2.2.1.2.ident hu) he.formed⟩
  call e cs args ds he hargs := by
    obtain ⟨ht, hargs, hu⟩ := hargs
    refine ⟨.call he.spans.startsAt he.spans (.mk ht hargs.read.spans hu), fun hp => ?_⟩
    simp only [Token.proper_cons, Token.proper_append] at hp
    have he := he.sound hp.1
    have hargs := hargs.read.sound hp.2.2.1
    exact ⟨⟨.call he.level he.graded fun a ha => (hargs a ha).graded, Level.le_refl _⟩,
      .call he.formed fun a ha => (hargs a ha).formed⟩

theorem onward_suffixTurn {again again' : Expr → Parser Expr}
    (h : Takes n inner inner' (Expr.IsReadFrom .coalesce)) (hR : KeptBySuffix R)
    (hagain : Onward n again again' R) :
    Onward (n + 1) (suffixTurn inner again) (suffixTurn inner' again') R := by
  intro e cs he
  refine .takeAny (fun t hop ht => .ident fun u hu => ?_) (.take (fun t ht => ?_) (.pure (by simpa using he)))
  · simpa using hagain _ _ (hR.member e cs t u he hop ht hu)
  · refine (takes_itemsUntil _ h).next fun args ds hargs => .weaken (.expect fun u hu => ?_)
    simpa using hagain _ _ (hR.call e cs args _ he (.mk ht hargs hu))

theorem unrolled_suffixTurn (h : Takes n inner inner' (Expr.IsReadFrom .coalesce)) (hR : KeptBySuffix R) :
    Unrolled n (suffixTurn inner) (suffixTurn inner') fun f g => Onward n f g R :=
  unrolled_onward fun _ hk _ _ => onward_suffixTurn (h.mono (Nat.le_of_lt hk)) hR

theorem takes_postfixWith (h : Takes n inner inner' (Expr.IsReadFrom .coalesce)) :
    Takes (n + 1) (postfixWith inner) (postfixWith inner') (Expr.IsReadFrom .suffix) := by
  refine (takes_primaryWith h).step (fun _ _ he => he.spans.startsAt.ne_nil) fun e cs he => ?_
  exact Onward.bounded (fun _ hk => unrolled_suffixTurn (h.mono hk) keptBySuffix_isReadFrom) (fun _ => rfl)
    (fun _ => rfl) e cs (he.imp (·.mono (by decide)))

/-- An operation whose operands are of the levels that it asks for. -/
theorem binary_isReadFrom {op : BinaryOp} {l r : Expr} {cs ds : List Token} {t : Token}
    (hop : ∀ text, op ≠ .other text) (hl : l.IsReadFrom (leftLevel op) cs) (ht : t.spells op.text = true)
    (hr : r.IsReadFrom (rightLevel op) ds) (hlv : lv ≤ opLevel op) :
    (binary l op r).IsReadFrom lv (cs ++ t :: ds) := by
  refine ⟨.binary hl.spans.startsAt hl.spans ht hr.spans, fun hp => ?_⟩
  simp only [Token.proper_cons, Token.proper_append] at hp
  have hl := hl.sound hp.1
  have hr := hr.sound hp.2.2
  exact ⟨⟨.binary hop hl.level hr.level hl.graded hr.graded, hlv⟩, .binary hop hl.formed hr.formed⟩

/-- An operand, perhaps with an operator and what comes again behind it. -/
theorem takes_joined (op : BinaryOp) (hop : ∀ text, op ≠ .other text) (hlv : lv ≤ opLevel op)
    (hle : lv ≤ leftLevel op) (h : Takes (n + 1) operand operand' (Expr.IsReadFrom (leftLevel op)))
    (hagain : Takes n again again' (Expr.IsReadFrom (rightLevel op))) :
    Takes (n + 1)
      (operand >>= fun l => sees op.text >>= fun b =>
        if b = true then advance >>= fun _ => again >>= fun r => pure (binary l op r) else pure l)
      (operand' >>= fun l => sees op.text >>= fun b =>
        if b = true then advance >>= fun _ => again' >>= fun r => pure (binary l op r) else pure l)
      (Expr.IsReadFrom lv) := by
  refine h.step (fun _ _ he => he.spans.startsAt.ne_nil) fun l cs hl => .weaken (.take (fun t ht => ?_) ?_)
  · exact hagain.last fun r ds hr => binary_isReadFrom hop hl ht hr hlv
  · exact .pure (by simpa using hl.imp (·.mono hle))

theorem takes_powerOf (h : Takes (n + 1) operand operand' (Expr.IsReadFrom .suffix))
    (hagain : Takes n again again' (Expr.IsReadFrom .unary)) :
    Takes (n + 1) (powerOf operand again) (powerOf operand' again') (Expr.IsReadFrom .unary) :=
  takes_joined .pow (by simp) (by decide) (by decide) h hagain

theorem takes_unaryTurn (h : Takes (n + 1) operand operand' (Expr.IsReadFrom .suffix))
    (hagain : Takes n again again' (Expr.IsReadFrom .unary)) :
    Takes (n + 1) (unaryTurn operand again) (unaryTurn operand' again') (Expr.IsReadFrom .unary) := by
  have hops : ∀ s ∈ ["-", "!"], UnaryOp.ofText s ∈ [.neg, .not] := by decide
  refine .takeAny (fun t hop ht => hagain.last fun e cs he => ?_) (takes_powerOf h hagain)
  refine ⟨.unary (by rwa [UnaryOp.text_ofText]) he.spans, fun hp => ?_⟩
  have he := he.sound (Token.proper_cons.1 hp).2
  exact ⟨⟨.unary (hops _ hop) he.level he.graded, Level.le_refl _⟩, .unary (hops _ hop) he.formed⟩

theorem unrolled_unaryTurn (h : Takes n operand operand' (Expr.IsReadFrom .suffix)) :
    Unrolled n (unaryTurn operand) (unaryTurn operand') fun p q => Takes n p q (Expr.IsReadFrom .unary) :=
  unrolled_takes fun _ hk _ _ => takes_unaryTurn (h.mono hk)

theorem takes_unaryWith (h : Takes n inner inner' (Expr.IsReadFrom .coalesce)) :
    Takes (n + 1) (unaryWith inner) (unaryWith inner') (Expr.IsReadFrom .unary) :=
  .bounded (fun _ hk => unrolled_unaryTurn ((takes_postfixWith h).mono hk)) (fun _ => rfl) fun _ => rfl

/-- The texts spell operators of a level, with operands of the two levels. -/
def Join (ops : List String) (lv left right : Level) : Prop :=
  ∀ s ∈ ops, (∀ text, BinaryOp.ofText s ≠ .other text) ∧ opLevel (.ofText s) = lv ∧
    leftLevel (.ofText s) = left ∧ rightLevel (.ofText s) = right

/-- The levels whose operators join two operands, from the tightest to the loosest. -/
theorem joins : Join ["*", "/", "%"] .product .product .unary ∧ Join ["+", "-"] .sum .sum .product ∧
    Join ["<", "<=", "==", "!=", ">=", ">"] .comparison .sum .sum ∧ Join ["&&"] .and .and .comparison ∧
    Join ["||"] .or .or .and := by
  simp [Join, BinaryOp.ofText, opLevel, leftLevel, rightLevel]

theorem Join.isReadFrom {left : Level} (hops : Join ops lv left right) {l r : Expr} {cs ds : List Token}
    {t : Token} (hl : l.IsReadFrom left cs) (ht : t.text ∈ ops) (hs : t.spells t.text = true)
    (hr : r.IsReadFrom right ds) : (binary l (.ofText t.text) r).IsReadFrom lv (cs ++ t :: ds) := by
  obtain ⟨hknown, rfl, rfl, rfl⟩ := hops t.text ht
  exact binary_isReadFrom hknown hl (by rwa [BinaryOp.text_ofText]) hr (Level.le_refl _)

theorem onward_chainTurn {again again' : Expr → Parser Expr}
    (h : Takes n operand operand' (Expr.IsReadFrom right))
    (hR : ∀ l cs t r ds, R l cs → t.text ∈ ops → t.spells t.text = true → r.IsReadFrom right ds →
      R (binary l (.ofText t.text) r) (cs ++ t :: ds))
    (hagain : Onward n again again' R) :
    Onward (n + 1) (chainTurn ops operand again) (chainTurn ops operand' again') R := by
  intro l cs hl
  refine .takeAny (fun t hop ht => h.next fun r ds hr => ?_) (.pure (by simpa using hl))
  simpa using hagain _ _ (hR l cs t r ds hl hop ht hr)

theorem unrolled_chainTurn (h : Takes n operand operand' (Expr.IsReadFrom right))
    (hR : ∀ l cs t r ds, R l cs → t.text ∈ ops → t.spells t.text = true → r.IsReadFrom right ds →
      R (binary l (.ofText t.text) r) (cs ++ t :: ds)) :
    Unrolled n (chainTurn ops operand) (chainTurn ops operand') fun f g => Onward n f g R :=
  unrolled_onward fun _ hk _ _ => onward_chainTurn (h.mono (Nat.le_of_lt hk)) hR

theorem takes_leftAssoc (hops : Join ops lv lv right) (hle : lv ≤ right)
    (h : Takes n operand operand' (Expr.IsReadFrom right)) :
    Takes n (leftAssoc ops operand) (leftAssoc ops operand') (Expr.IsReadFrom lv) :=
  h.next fun e cs he => Onward.bounded
    (fun _ hk => unrolled_chainTurn (h.mono hk) fun _ _ _ _ _ hl ht hs hr => hops.isReadFrom hl ht hs hr)
    (fun _ => rfl) (fun _ => rfl) e cs (he.imp (·.mono hle))

theorem takes_productWith (h : Takes n inner inner' (Expr.IsReadFrom .coalesce)) :
    Takes (n + 1) (productWith inner) (productWith inner') (Expr.IsReadFrom .product) :=
  takes_leftAssoc joins.1 (by decide) (takes_unaryWith h)

theorem takes_sumWith (h : Takes n inner inner' (Expr.IsReadFrom .coalesce)) :
    Takes (n + 1) (sumWith inner) (sumWith inner') (Expr.IsReadFrom .sum) :=
  takes_leftAssoc joins.2.1 (by decide) (takes_productWith h)

theorem takes_compareWith (h : Takes n inner inner' (Expr.IsReadFrom .coalesce)) :
    Takes (n + 1) (compareWith inner) (compareWith inner') (Expr.IsReadFrom .comparison) := by
  refine (takes_sumWith h).next fun l cs hl => .current fun t => .ite (fun hop => ?_) fun _ =>
    Takes.from (.pure (by simpa using hl.imp (·.mono (by decide)))) t
  simp only [Bool.and_eq_true, decide_eq_true_eq] at hop
  have hs : t.spells t.text = true := Token.spells_iff.2 ⟨rfl, by simp [hop.1], by simp [hop.1]⟩
  exact .spelled hs ((takes_sumWith h).weaken.last fun r ds hr =>
    joins.2.2.1.isReadFrom hl (List.contains_iff_mem.1 hop.2) hs hr)

theorem takes_andWith (h : Takes n inner inner' (Expr.IsReadFrom .coalesce)) :
    Takes (n + 1) (andWith inner) (andWith inner') (Expr.IsReadFrom .and) :=
  takes_leftAssoc joins.2.2.2.1 (by decide) (takes_compareWith h)

theorem takes_orWith (h : Takes n inner inner' (Expr.IsReadFrom .coalesce)) :
    Takes (n + 1) (orWith inner) (orWith inner') (Expr.IsReadFrom .or) :=
  takes_leftAssoc joins.2.2.2.2 (by decide) (takes_andWith h)

theorem takes_coalesceTurn (h : Takes (n + 1) operand operand' (Expr.IsReadFrom .or))
    (hagain : Takes n again again' (Expr.IsReadFrom .coalesce)) :
    Takes (n + 1) (coalesceTurn operand again) (coalesceTurn operand' again') (Expr.IsReadFrom .coalesce) :=
  takes_joined .coalesce (by simp) (by decide) (by decide) h hagain

theorem unrolled_coalesceTurn (h : Takes n operand operand' (Expr.IsReadFrom .or)) :
    Unrolled n (coalesceTurn operand) (coalesceTurn operand')
      fun p q => Takes n p q (Expr.IsReadFrom .coalesce) :=
  unrolled_takes fun _ hk _ _ => takes_coalesceTurn (h.mono hk)

theorem takes_exprWith (h : Takes n inner inner' (Expr.IsReadFrom .coalesce)) :
    Takes (n + 1) (exprWith inner) (exprWith inner') (Expr.IsReadFrom .coalesce) :=
  .bounded (fun _ hk => unrolled_coalesceTurn ((takes_orWith h).mono hk)) (fun _ => rfl) fun _ => rfl

theorem unrolled_exprWith : Unrolled n exprWith exprWith fun p q => Takes n p q (Expr.IsReadFrom .coalesce) :=
  unrolled_takes fun _ _ _ _ => takes_exprWith

theorem takes_expr : Takes n expr expr (Expr.IsReadFrom .coalesce) :=
  .bounded (fun _ _ => unrolled_exprWith) (fun _ => rfl) fun _ => rfl

end Expressions

/-! ### Statements -/

section Statements

variable {n : Nat} {α : Type} {R : α → List Token → Prop} {P : α → Prop} {p q : Parser α}

theorem takes_name : Takes n (expectIdent >>= fun t => pure t.text) (expectIdent >>= fun t => pure t.text)
    (ReadFrom Named Token.Word) :=
  .ident fun _ ht => .pure ⟨.mk ht, fun hp => (Token.proper_cons.1 hp).1.2.ident ht⟩

theorem takes_typeIfAny :
    Takes n typeIfAny typeIfAny (ReadFrom (IfAny TypeExpr.Spans) (∀ t ∈ ·, t.Sound)) := by
  refine .look peeks_seesType fun _ => .ite (fun _ => ?_) fun _ => .pure IfAny.none.read
  exact takes_typeExpr.last fun _ _ hy => (IfAny.some hy).read

theorem takes_behind (s : String) (h : Takes n p q (ReadFrom R P)) :
    Takes (n + 1) (behind s p) (behind s q) (ReadFrom (IfAny (Behind R s)) (∀ a ∈ ·, P a)) :=
  .take (fun _ ht => h.last fun _ _ ha => (IfAny.some (Behind.mk ht ha).read).read) (.pure IfAny.none.read)

theorem takes_param : Takes n param param (ReadFrom Param.Spans Param.Sound) := by
  refine .current fun t => .starting ?_
  refine Takes.from (takes_typeIfAny.next fun type cs hy => .ident fun u hu => .pure ?_) t
  refine ⟨by simp, fun hstart => ⟨.mk (startsAt_of_head? hstart) hy.spans hu, fun hp => ?_⟩⟩
  simp only [Token.proper_cons, Token.proper_append] at hp
  have hy := hy.sound hp.1
  exact ⟨⟨fun t ht => (hy t ht).graded⟩, fun t ht => (hy t ht).formed, rfl, by simpa using hp.2.1.2.ident hu⟩

theorem takes_paramsInParens {t : Token} (ht : t.spells "(" = true) :
    Takes n paramsInParens paramsInParens fun ps cs =>
      ReadFrom (Between (Separated Param.Spans) "(" ")") (∀ q ∈ ·, q.Sound) ps (t :: cs) :=
  (takes_itemsUntil _ takes_param).next fun _ _ hps =>
    .weaken (.expect fun _ hu => .pure (Between.mk ht hps.read hu).read)

theorem takes_varDecl : Takes n varDecl varDecl Stmt.IsReadFrom := by
  refine .weaken (.expect fun t ht => takes_typeIfAny.next fun type cs hy => .ident fun u hu => ?_)
  refine (takes_behind _ takes_expr).weaken.last fun init ds hi => ?_
  refine ⟨.varDecl ht hy.spans hu hi.spans, fun hp => ?_⟩
  simp only [Token.proper_cons, Token.proper_append] at hp
  have hy := hy.sound hp.2.1
  have hi := hi.sound hp.2.2.2
  exact ⟨.varDecl (fun t ht => (hy t ht).graded) fun e he => (hi e he).graded,
    .varDecl (hp.2.2.1.2.ident hu) (fun t ht => (hy t ht).formed) fun e he => (hi e he).formed,
    List.forall_mem_nil _⟩

theorem takes_collection : Takes n collection collection Stmt.IsReadFrom := by
  refine .weaken (.expect fun t ht => .ident fun u hu => .weaken (.expect fun v hv => ?_))
  refine .look (peeks_seesAny _) fun _ => .ite (fun _ => ?_) fun _ => takes_failFor _
  refine (takes_primaryWith takes_expr).weaken.last fun e cs he => ⟨.collection ht hu hv he.spans, fun hp => ?_⟩
  simp only [Token.proper_cons] at hp
  have he := he.sound hp.2.2.2
  exact ⟨.collection he.graded, .collection (hp.2.1.2.ident hu) he.formed, List.forall_mem_nil _⟩

theorem takes_print : Takes n print print Stmt.IsReadFrom := by
  refine .weaken (.expect fun t ht => (takes_items takes_expr).last fun es cs hes => ?_)
  refine ⟨.print ht hes.2.read.spans, fun hp => ?_⟩
  have hes := hes.2.read.sound (Token.proper_cons.1 hp).2
  exact ⟨.print fun e he => (hes e he).graded, .print fun e he => (hes e he).formed, List.forall_mem_nil _⟩

theorem takes_ret : Takes n ret ret Stmt.IsReadFrom := by
  refine .weaken (.expect fun t ht => .current fun next => Takes.from ?_ next)
  refine .look peeks_seesExpr fun _ => .ite (fun _ => ?_) fun _ => .pure ?_
  · refine takes_expr.last fun e cs he => ⟨.ret ht (.some he.spans), fun hp => ?_⟩
    have he := he.sound (Token.proper_cons.1 hp).2
    exact ⟨.ret (by simpa using he.graded), .ret (by simpa using he.formed), List.forall_mem_nil _⟩
  · exact ⟨.ret ht .none, fun _ => ⟨.ret (by simp), .ret (by simp), List.forall_mem_nil _⟩⟩

theorem Takes.checkTarget {e : Expr} {f g : Unit → Parser α} (h : e.isPlace = true → Takes n (f ()) (g ()) R) :
    Takes n (checkTarget e >>= f) (checkTarget e >>= g) R := by
  unfold Parser.checkTarget
  split
  · exact h rfl
  · exact h rfl
  · exact (takes_failAt _ (by simp)).never

theorem takes_exprStmt : Takes n exprStmt exprStmt Stmt.IsReadFrom := by
  refine .current fun t => .look peeks_seesExpr fun _ => ?_
  refine .ite (fun _ => (takes_failFor _).never.from t) fun _ => ?_
  have hexpr : TakesFrom t n expr expr fun e cs => e.IsReadFrom .coalesce cs ∧ StartsAt t.pos cs :=
    .starting ((takes_expr.from t).imp fun e cs he =>
      ⟨he.spans.startsAt.ne_nil, fun hp => ⟨he, startsAt_of_head? hp⟩⟩)
  refine hexpr.next fun e cs he => .weaken (.takeAny (fun op hop hs => .checkTarget fun hplace => ?_)
    (.takeAny (fun op hop hs => .checkTarget fun hplace => .pure ?_) ?_))
  · refine takes_expr.last fun value ds hv => ?_
    simp only [List.mem_cons, List.not_mem_nil, or_false] at hop
    rcases hop with hop | hop <;> rw [hop] at hs ⊢
    · refine ⟨.assign he.2 he.1.spans hs hv.spans, fun hp => ?_⟩
      simp only [Token.proper_cons, Token.proper_append] at hp
      have he := he.1.sound hp.1
      have hv := hv.sound hp.2.2
      exact ⟨.assign he.graded hv.graded, .assign he.formed hv.formed, List.forall_mem_singleton.2 hplace⟩
    · refine ⟨.addAssign he.2 he.1.spans hs hv.spans, fun hp => ?_⟩
      simp only [Token.proper_cons, Token.proper_append] at hp
      have he := he.1.sound hp.1
      have hv := hv.sound hp.2.2
      exact ⟨.addAssign he.graded hv.graded, .addAssign he.formed hv.formed, List.forall_mem_singleton.2 hplace⟩
  · refine ⟨.bump he.2 he.1.spans ?_, fun hp => ?_⟩
    · simp only [List.mem_cons, List.not_mem_nil, or_false] at hop
      rcases hop with hop | hop <;> rw [hop] at hs ⊢ <;> exact hs
    · have he := he.1.sound (Token.proper_append.1 hp).1
      exact ⟨.bump he.graded, .bump he.formed, List.forall_mem_singleton.2 hplace⟩
  · split
    · refine .pure ⟨by simpa using Stmt.Spans.call he.1.spans, fun hp => ?_⟩
      obtain ⟨⟨hgraded, -⟩, hformed⟩ := he.1.sound (Token.proper_append.1 hp).1
      cases hformed with
      | call hf ha => exact ⟨.call hgraded, .call hf ha, List.forall_mem_nil _⟩
    · exact takes_failAt _ (by simp)

section Blocks

variable {block block' : Parser (List Stmt)} (hb : Takes n block block' blockIsReadFrom)

include hb

theorem takes_clauseTurn {again again' : Parser (List ElseIf)}
    (hagain : Takes n again again' (InRow (ReadFrom ElseIf.Spans ElseIf.Sound))) :
    Takes (n + 1) (clauseTurn block again) (clauseTurn block' again')
      (InRow (ReadFrom ElseIf.Spans ElseIf.Sound)) := by
  refine .take (fun t ht => takes_expr.next fun test cs he => hb.next fun body ds hbody => ?_) (.pure .nil)
  have hclause : ReadFrom ElseIf.Spans ElseIf.Sound (.mk t.pos test body) (t :: (cs ++ ds)) := by
    refine ⟨.mk ht he.spans hbody.spans, fun hp => ?_⟩
    simp only [Token.proper_cons, Token.proper_append] at hp
    exact ⟨he.sound hp.2.1, hbody.sound hp.2.2⟩
  exact hagain.last fun clauses es hes => by simpa using InRow.cons hclause hes

theorem unrolled_clauseTurn : Unrolled n (clauseTurn block) (clauseTurn block')
    fun p q => Takes n p q (InRow (ReadFrom ElseIf.Spans ElseIf.Sound)) :=
  unrolled_takes fun _ hk _ _ => takes_clauseTurn (hb.mono (Nat.le_of_lt hk))

theorem takes_function : Takes (n + 1) (function block) (function block') Stmt.IsReadFrom := by
  refine .expect fun t ht => .ident fun u hu => ?_
  have hparams : Takes n (behind "(" paramsInParens) (behind "(" paramsInParens)
      (ReadFrom (IfAny (Between (Separated Param.Spans) "(" ")")) (∀ ps ∈ ·, ∀ q ∈ ps, q.Sound)) :=
    .weaken (.take (fun t ht => (takes_paramsInParens ht).last fun _ _ hps => (IfAny.some hps).read)
      (.pure IfAny.none.read))
  refine hparams.next fun ps cs hps => (takes_behind _ takes_typeExpr).weaken.next fun returns ds hr => ?_
  refine hb.last fun body es hbody => ⟨.function ht hu hps.spans hr.spans hbody.spans, fun hp => ?_⟩
  simp only [Token.proper_cons, Token.proper_append] at hp
  have hps := hps.sound hp.2.2.1
  have hr := hr.sound hp.2.2.2.1
  have hbody := sound_block (hbody.sound hp.2.2.2.2)
  exact ⟨.function (fun ps h q hq => (hps ps h q hq).graded) (fun t ht => (hr t ht).graded) hbody.1,
    .function (hp.2.1.2.ident hu) (fun ps h q hq => (hps ps h q hq).formed) (fun t ht => (hr t ht).formed)
      hbody.2.1, hbody.2.2⟩

theorem takes_classDecl : Takes (n + 1) (classDecl block) (classDecl block') Stmt.IsReadFrom := by
  refine .expect fun t ht => .ident fun u hu => hb.last fun body cs hbody => ?_
  refine ⟨.classDecl ht hu hbody.spans, fun hp => ?_⟩
  simp only [Token.proper_cons] at hp
  have hbody := sound_block (hbody.sound hp.2.2)
  exact ⟨.classDecl hbody.1, .classDecl (hp.2.1.2.ident hu) hbody.2.1, hbody.2.2⟩

theorem takes_ifChain : Takes (n + 1) (ifChain block) (ifChain block') Stmt.IsReadFrom := by
  refine .expect fun t ht => takes_expr.next fun test cs he => hb.next fun body ds hbody => ?_
  have hclauses : Takes n (left >>= elseIfs block) (left >>= elseIfs block')
      (InRow (ReadFrom ElseIf.Spans ElseIf.Sound)) :=
    .bounded (fun _ hk => unrolled_clauseTurn (hb.mono hk)) (fun _ => rfl) fun _ => rfl
  refine hclauses.next fun clauses es hes => (takes_behind _ hb).weaken.last fun rest fs hrest => ?_
  refine ⟨.ifChain ht he.spans hbody.spans hes.read.spans hrest.spans, fun hp => ?_⟩
  simp only [Token.proper_cons, Token.proper_append] at hp
  have he := he.sound hp.2.1
  have hbody := sound_block (hbody.sound hp.2.2.1)
  have hes := hes.read.sound hp.2.2.2.1
  have hrest := hrest.sound hp.2.2.2.2
  refine ⟨.ifChain he.graded hbody.1 (fun c hc => (hes c hc).test.graded)
      (fun c hc s hs => ((hes c hc).body s hs).graded) fun b hb s hs => (hrest b hb s hs).graded,
    .ifChain he.formed hbody.2.1 (fun c hc => (hes c hc).test.formed)
      (fun c hc s hs => ((hes c hc).body s hs).formed) fun b hb s hs => (hrest b hb s hs).formed, ?_⟩
  have hclauses : ∀ t ∈ targetsOfClauses clauses, t.isPlace = true := forall_targetsOfClauses.2 fun s hs => by
    obtain ⟨c, hc, hs⟩ := List.mem_flatMap.1 hs
    exact ((hes c hc).body s hs).places
  cases rest with
  | none => exact List.forall_mem_append.2 ⟨hbody.2.2, hclauses⟩
  | some rest =>
    exact List.forall_mem_append.2 ⟨hbody.2.2,
      List.forall_mem_append.2 ⟨hclauses, (sound_block (hrest rest rfl)).2.2⟩⟩

theorem takes_whileLoop : Takes (n + 1) (whileLoop block) (whileLoop block') Stmt.IsReadFrom := by
  refine .expect fun t ht => takes_expr.next fun test cs he => hb.last fun body ds hbody => ?_
  refine ⟨.whileLoop ht he.spans hbody.spans, fun hp => ?_⟩
  simp only [Token.proper_cons, Token.proper_append] at hp
  have he := he.sound hp.2.1
  have hbody := sound_block (hbody.sound hp.2.2)
  exact ⟨.whileLoop he.graded hbody.1, .whileLoop he.formed hbody.2.1, hbody.2.2⟩

theorem takes_forLoop : Takes (n + 1) (forLoop block) (forLoop block') Stmt.IsReadFrom := by
  refine .expect fun t ht => (takes_items takes_name).next fun names cs hnames => ?_
  refine .weaken (.expect fun u hu => ?_)
  refine takes_expr.next fun e ds he => .current fun next => .ite (fun hop => ?_) fun _ => Takes.from ?_ next
  · simp only [Bool.and_eq_true, Bool.or_eq_true, beq_iff_eq, decide_eq_true_eq] at hop
    obtain ⟨htext, hk⟩ := hop
    have hs : next.spells (RangeOp.ofText next.text).text = true := by
      rcases htext with htext | htext <;> simp [Token.spells_iff, htext, hk, RangeOp.ofText, RangeOp.text]
    have hrange : RangeOp.ofText next.text ∈ [.through, .below] := by
      rcases htext with htext | htext <;> rw [htext] <;> decide
    split
    · obtain ⟨-, _ | ⟨⟨⟨hident⟩, -⟩, _ | _⟩⟩ := hnames
      refine .weaken (.advance (by simp [hk]) (takes_expr.next fun high es hh => ?_))
      refine hb.last fun body fs hbody => ?_
      refine ⟨.rangeLoop ht hident hu he.spans hs hh.spans hbody.spans, fun hp => ?_⟩
      simp only [Token.proper_cons, Token.proper_append] at hp
      have he := he.sound hp.2.2.2.1
      have hh := hh.sound hp.2.2.2.2.2.1
      have hbody := sound_block (hbody.sound hp.2.2.2.2.2.2)
      exact ⟨.rangeLoop he.graded hh.graded hbody.1,
        .rangeLoop (hp.2.1.1.1.2.ident hident) he.formed hrange hh.formed hbody.2.1, hbody.2.2⟩
    · exact (takes_fail (by simp)).from next
  · refine hb.last fun body es hbody => ⟨.eachLoop ht hnames.2.read.spans hu he.spans hbody.spans, fun hp => ?_⟩
    simp only [Token.proper_cons, Token.proper_append] at hp
    have he := he.sound hp.2.2.2.1
    have hbody := sound_block (hbody.sound hp.2.2.2.2)
    exact ⟨.eachLoop he.graded hbody.1, .eachLoop (hnames.2.read.sound hp.2.1) he.formed hbody.2.1, hbody.2.2⟩

theorem takes_stmtWith : Takes (n + 1) (stmtWith block) (stmtWith block') Stmt.IsReadFrom := by
  refine .current fun t => ?_
  refine .ite (fun _ => takes_varDecl.from t) fun _ => .ite (fun _ => takes_collection.from t) fun _ => ?_
  refine .ite (fun _ => (takes_function hb).from t) fun _ => ?_
  refine .ite (fun _ => (takes_classDecl hb).from t) fun _ => ?_
  refine .ite (fun _ => (takes_ifChain hb).from t) fun _ => ?_
  refine .ite (fun _ => (takes_whileLoop hb).from t) fun _ => ?_
  refine .ite (fun _ => (takes_forLoop hb).from t) fun _ => .ite (fun _ => takes_print.from t) fun _ => ?_
  refine .ite (fun _ => takes_ret.from t) fun _ => .ite (fun htext => ?_) fun _ => takes_exprStmt.from t
  refine .worded ?_ fun hk =>
    .advance hk (.pure ⟨.brk htext, fun _ => ⟨.brk, .brk, List.forall_mem_nil _⟩⟩)
  rw [htext]
  decide

end Blocks

variable {stmt stmt' : Parser Stmt} {again again' : Parser (List Stmt)}

theorem takes_closeTurn (h : Takes (n + 1) stmt stmt' Stmt.IsReadFrom)
    (hagain : Takes n again again' (InRow Stmt.IsReadFrom)) :
    Takes (n + 1) (closeTurn stmt again) (closeTurn stmt' again') (InRow Stmt.IsReadFrom) := by
  refine .look (peeks_sees _) fun _ => .ite (fun _ => .pure .nil) fun _ => ?_
  refine .look (peeks_seesKind _) fun _ => .ite (fun _ => (takes_fail (by simp)).never) fun _ => ?_
  exact h.step (fun _ _ hs => hs.spans.ne_nil) fun s cs hs => hagain.last fun ss ds hss => .cons hs hss

theorem unrolled_closeTurn (h : Takes n stmt stmt' Stmt.IsReadFrom) :
    Unrolled n (closeTurn stmt) (closeTurn stmt') fun p q => Takes n p q (InRow Stmt.IsReadFrom) :=
  unrolled_takes fun _ hk _ _ => takes_closeTurn (h.mono hk)

theorem takes_blockWith (h : Takes n stmt stmt' Stmt.IsReadFrom) :
    Takes (n + 1) (blockWith stmt) (blockWith stmt') blockIsReadFrom := by
  refine .expect fun t ht => ?_
  have hbody : Takes n (left >>= stmtsUntilClose stmt) (left >>= stmtsUntilClose stmt')
      (InRow Stmt.IsReadFrom) :=
    .bounded (fun _ hk => unrolled_closeTurn (h.mono hk)) (fun _ => rfl) fun _ => rfl
  exact hbody.next fun body cs hb => .weaken (.expect fun u hu => .pure (Between.mk ht hb.read hu).read)

/-- The blocks in a block start behind its colon. -/
theorem unrolled_blockWith :
    Unrolled n (fun block => blockWith (stmtWith block)) (fun block => blockWith (stmtWith block))
      fun p q => Takes n p q blockIsReadFrom :=
  unrolled_takes fun _ _ _ _ h => (takes_blockWith (takes_stmtWith h)).weaken

theorem takes_block : Takes n block block blockIsReadFrom :=
  .bounded (fun _ _ => unrolled_blockWith) (fun _ => rfl) fun _ => rfl

theorem takes_stmt : Takes n Parser.stmt Parser.stmt Stmt.IsReadFrom := (takes_stmtWith takes_block).weaken

end Statements

/-! ### Programs -/

section Programs

variable {n : Nat} {ts us : List Token} {tree : Program}

theorem takes_endTurn {again again' : Parser (List Stmt)}
    (hagain : Takes n again again' (InRow Stmt.IsReadFrom)) :
    Takes (n + 1) (endTurn again) (endTurn again') (InRow Stmt.IsReadFrom) := by
  refine .look (peeks_seesKind _) fun _ => .ite (fun _ => .pure .nil) fun _ => ?_
  exact takes_stmt.step (fun _ _ hs => hs.spans.ne_nil) fun s cs hs => hagain.last fun ss ds hss => .cons hs hss

theorem unrolled_endTurn : Unrolled n endTurn endTurn fun p q => Takes n p q (InRow Stmt.IsReadFrom) :=
  unrolled_takes fun _ _ _ _ => takes_endTurn

theorem takes_program : Takes n program program (InRow Stmt.IsReadFrom) :=
  .bounded (fun _ _ => unrolled_endTurn) (fun _ => rfl) fun _ => rfl

/-- Every statement takes a token, so only the end ends the statements. -/
theorem stmtsUntilEnd_stops (hts : Ended ts) (hlen : ts.length ≤ n) (h : stmtsUntilEnd n ts = .ok tree us) :
    ∃ q, us = [Token.endAt q] := by
  induction n generalizing ts tree with
  | zero =>
    have := hts.length_pos
    omega
  | succ n ih =>
    cases hts with
    | last q =>
      cases h
      exact ⟨q, rfl⟩
    | @cons t ts ht hts =>
      rw [stmtsUntilEnd, endTurn, bind_eq_of_ok (seesKind_eq (.cons (decide_eq_false ht))),
        if_neg Bool.false_ne_true] at h
      obtain ⟨s, mid, hs, h⟩ := bind_ok.1 h
      obtain ⟨ss, vs, hss, h⟩ := bind_ok.1 h
      obtain ⟨-, rfl⟩ := pure_ok.1 h
      have hstmt := (takes_stmt _ (Ended.cons ht hts) hlen).2
      rw [hs] at hstmt
      obtain ⟨heq, hmid, hread⟩ := hstmt
      refine ih hmid ?_ hss
      have hpos := List.length_pos_of_ne_nil hread.spans.ne_nil
      rw [heq, List.length_append] at hlen
      omega

theorem ended_append {body : List Token} (hbody : ∀ t ∈ body, t.kind ≠ .eof) (q : Pos) :
    Ended (body ++ [Token.endAt q]) := by
  induction body with
  | nil => exact .last q
  | cons t body ih =>
    obtain ⟨ht, hbody⟩ := List.forall_mem_cons.1 hbody
    exact .cons ht (ih hbody)

theorem ended_of_scan {source : String} (h : Token.scan source = .ok ts) : Ended ts := by
  obtain ⟨body, q, rfl, hbody⟩ := Token.regular_of_scan h
  exact ended_append (fun t ht => (hbody t ht).2) q

/-- A program that is read from a source text, and the tokens that it is read from. -/
theorem read_of_run {source : String} (hscan : Token.scan source = .ok ts) (hrun : run ts = .ok tree) :
    ∃ body q, ts = body ++ [Token.endAt q] ∧ InRow Stmt.Spans tree body ∧ Token.Proper body ∧
      ∀ s ∈ tree, s.Sound := by
  have hts := ended_of_scan hscan
  unfold run at hrun
  split at hrun
  · next tree' us hprogram =>
    cases hrun
    have htakes := (takes_program ts hts (Nat.le_refl _)).2
    rw [hprogram] at htakes
    obtain ⟨rfl, -, hread⟩ := htakes
    obtain ⟨q, rfl⟩ := stmtsUntilEnd_stops hts (Nat.le_refl _) hprogram
    obtain ⟨body, q', hbody, hproper⟩ := Token.regular_of_scan hscan
    obtain ⟨rfl, -⟩ := List.append_inj' hbody rfl
    have hproper : Token.Proper _ := fun t ht => (hproper t ht).1
    exact ⟨_, q, rfl, hread.read.spans, hproper, hread.read.sound hproper⟩
  · cases hrun

/-- Tokens of a source text are never too few. -/
theorem cause_of_run {source : String} {e : Error} (hscan : Token.scan source = .ok ts)
    (hrun : run ts = .error e) : e.cause ≠ .exhausted := by
  unfold run at hrun
  split at hrun
  · cases hrun
  · next e' us hprogram =>
    cases hrun
    have htakes := (takes_program ts (ended_of_scan hscan) (Nat.le_refl _)).2
    rw [hprogram] at htakes
    obtain _ | ⟨-, -, he⟩ := htakes
    exact he

/-- Every node of a program that is read from a source text stands where the first of its tokens does. -/
theorem run_spans_tokens {source : String} (hscan : Token.scan source = .ok ts) (hrun : run ts = .ok tree) :
    ∃ body q, ts = body ++ [Token.endAt q] ∧ InRow Stmt.Spans tree body := by
  obtain ⟨body, q, hts, hspans, -⟩ := read_of_run hscan hrun
  exact ⟨body, q, hts, hspans⟩

/-- The tokens of `a.b(c + 1).d++`. -/
def suffixTokens : List Token :=
  [⟨.ident, "a", ⟨1, 1⟩⟩, ⟨.op, ".", ⟨1, 2⟩⟩, ⟨.ident, "b", ⟨1, 3⟩⟩, ⟨.op, "(", ⟨1, 4⟩⟩,
    ⟨.ident, "c", ⟨1, 5⟩⟩, ⟨.op, "+", ⟨1, 7⟩⟩, ⟨.number, "1", ⟨1, 9⟩⟩, ⟨.op, ")", ⟨1, 10⟩⟩,
    ⟨.op, ".", ⟨1, 11⟩⟩, ⟨.ident, "d", ⟨1, 12⟩⟩, ⟨.op, "++", ⟨1, 13⟩⟩, .endAt ⟨1, 15⟩]

def suffixTree : Program :=
  let args : List Expr := [.binary ⟨1, 5⟩ .add (.var ⟨1, 5⟩ "c") (.num ⟨1, 9⟩ "1")]
  let callee : Expr := .member ⟨1, 1⟩ (.var ⟨1, 1⟩ "a") (some .direct) (some "b")
  [.bump ⟨1, 1⟩ (.member ⟨1, 1⟩ (.call ⟨1, 1⟩ callee (some args)) (some .direct) (some "d")) (some .up)]

theorem run_spans_tokens_suffix :
    Token.scan "a.b(c + 1).d++" = .ok suffixTokens ∧ run suffixTokens = .ok suffixTree ∧
      ∃ body q, suffixTokens = body ++ [Token.endAt q] ∧ InRow Stmt.Spans suffixTree body := by
  have hscan : Token.scan "a.b(c + 1).d++" = .ok suffixTokens := rfl
  have hrun : run suffixTokens = .ok suffixTree := by cbv
  exact ⟨hscan, hrun, run_spans_tokens hscan hrun⟩

end Programs

end Snack.Parser
