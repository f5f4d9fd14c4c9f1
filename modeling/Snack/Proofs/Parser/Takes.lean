import Snack.Parser.Stmt
import Snack.Proofs.Parser.Forward
import Snack.Proofs.Tree.Read

/-! What a parser takes from tokens that end. It takes some from their front, to which its value belongs, or
it fails at one of them; it never passes the end and never looks behind it. Two parsers are followed at once,
and only on a number of tokens: on more of them they may differ. So a recursion can be compared with one that
comes to something else at its bottom. -/

namespace Snack.Parser

open Snack.Tree

/-- Tokens as a scanner leaves them: only the last one marks the end, and it has no text. -/
inductive Ended : List Token → Prop where
  | last (p : Pos) : Ended [Token.endAt p]
  | cons {t : Token} {ts : List Token} (ht : t.kind ≠ .eof) (hts : Ended ts) : Ended (t :: ts)

theorem Ended.length_pos {ts : List Token} (h : Ended ts) : 0 < ts.length := by
  cases h <;> simp

theorem Ended.exists_cons {ts : List Token} (h : Ended ts) : ∃ t us, ts = t :: us := by
  cases h <;> exact ⟨_, _, rfl⟩

theorem Ended.tail {t : Token} {ts : List Token} (h : Ended (t :: ts)) (ht : t.kind ≠ .eof) : Ended ts := by
  cases h with
  | last => exact absurd rfl ht
  | cons _ hts => exact hts

/-- The end has no text, so it is none of the tokens that are told by it. -/
theorem Ended.kind_ne_eof {t : Token} {ts : List Token} (h : Ended (t :: ts)) (ht : t.text ≠ "") :
    t.kind ≠ .eof := by
  cases h with
  | last => exact absurd rfl ht
  | cons ht => exact ht

section Taking

variable {α β : Type} {R : α → List Token → Prop} {S : β → List Token → Prop}
variable {p q : Parser α} {f g : α → Parser β} {n : Nat} {t : Token} {ts : List Token}

/-- What becomes of the tokens `ts`. -/
inductive Outcome (R : α → List Token → Prop) (ts : List Token) :
    EStateM.Result Error (List Token) α → Prop where
  /-- The tokens in front were taken and belong to the value. -/
  | ok {a cs us} (hts : ts = cs ++ us) (hus : Ended us) (h : R a cs) : Outcome R ts (.ok a us)
  /-- Something else was wanted than the tokens that are left. -/
  | error {e cs us} (hts : ts = cs ++ us) (hus : Ended us) (he : e.cause ≠ .exhausted) :
      Outcome R ts (.error e us)

theorem Outcome.imp {R' : α → List Token → Prop} {r : EStateM.Result Error (List Token) α}
    (h : Outcome R ts r) (hR : ∀ a cs, R a cs → R' a cs) : Outcome R' ts r := by
  cases h with
  | ok hts hus ha => exact .ok hts hus (hR _ _ ha)
  | error hts hus he => exact .error hts hus he

/-- What was taken before stays in front. -/
theorem Outcome.behind {cs us : List Token} {r : EStateM.Result Error (List Token) α} (hts : ts = cs ++ us)
    (h : Outcome (fun a ds => R a (cs ++ ds)) us r) : Outcome R ts r := by
  cases h with
  | ok hus hvs ha => exact .ok (by rw [hts, hus, List.append_assoc]) hvs ha
  | error hus hvs he => exact .error (by rw [hts, hus, List.append_assoc]) hvs he

/-- Both parsers make the same of the tokens. -/
def TakesAt (ts : List Token) (p q : Parser α) (R : α → List Token → Prop) : Prop :=
  p ts = q ts ∧ Outcome R ts (p ts)

/-- The same of any tokens that end, if there are at most `n` of them. -/
def Takes (n : Nat) (p q : Parser α) (R : α → List Token → Prop) : Prop :=
  ∀ ts, Ended ts → ts.length ≤ n → TakesAt ts p q R

/-- The same with `t` in front. -/
def TakesFrom (t : Token) (n : Nat) (p q : Parser α) (R : α → List Token → Prop) : Prop :=
  ∀ ts, Ended (t :: ts) → (t :: ts).length ≤ n → TakesAt (t :: ts) p q R

theorem Takes.from (h : Takes n p q R) (t : Token) : TakesFrom t n p q R := fun ts => h (t :: ts)

theorem Takes.mono {m : Nat} (h : Takes n p q R) (hm : m ≤ n) : Takes m p q R :=
  fun ts hts hlen => h ts hts (Nat.le_trans hlen hm)

theorem Takes.weaken (h : Takes (n + 1) p q R) : Takes n p q R := h.mono (Nat.le_succ n)

theorem TakesFrom.weaken (h : TakesFrom t (n + 1) p q R) : TakesFrom t n p q R :=
  fun ts hts hlen => h ts hts (Nat.le_succ_of_le hlen)

/-- There is always a token left. -/
theorem Takes.zero : Takes 0 p q R := by
  intro ts hts hlen
  have := hts.length_pos
  omega

theorem Takes.imp {R' : α → List Token → Prop} (h : Takes n p q R) (hR : ∀ a cs, R a cs → R' a cs) :
    Takes n p q R' :=
  fun ts hts hlen => (h ts hts hlen).imp_right (·.imp hR)

theorem TakesFrom.imp {R' : α → List Token → Prop} (h : TakesFrom t n p q R)
    (hR : ∀ a cs, R a cs → R' a cs) : TakesFrom t n p q R' :=
  fun ts hts hlen => (h ts hts hlen).imp_right (·.imp hR)

/-! ### Sequences -/

theorem Takes.pure {a : α} (h : R a []) : Takes n (pure a) (pure a) R :=
  fun _ hts _ => ⟨rfl, .ok rfl hts h⟩

theorem TakesAt.bind (hp : TakesAt ts p q R)
    (hf : ∀ a cs us, ts = cs ++ us → Ended us → R a cs →
      TakesAt us (f a) (g a) fun b ds => S b (cs ++ ds)) :
    TakesAt ts (p >>= f) (q >>= g) S := by
  obtain ⟨hsame, hout⟩ := hp
  generalize hr : p ts = r at hsame hout
  cases hout with
  | @ok a cs us hts hus ha =>
    obtain ⟨hsame', hout'⟩ := hf a cs us hts hus ha
    unfold TakesAt
    rw [bind_eq_of_ok hr, bind_eq_of_ok hsame.symm]
    exact ⟨hsame', hout'.behind hts⟩
  | error hts hus he =>
    unfold TakesAt
    rw [bind_eq_of_error hr, bind_eq_of_error hsame.symm]
    exact ⟨rfl, .error hts hus he⟩

/-- What comes next has fewer tokens by those that were taken. -/
theorem Takes.bind (hp : Takes n p q R)
    (hf : ∀ a cs, R a cs → Takes (n - cs.length) (f a) (g a) fun b ds => S b (cs ++ ds)) :
    Takes n (p >>= f) (q >>= g) S := by
  intro ts hts hlen
  refine (hp ts hts hlen).bind fun a cs us heq hus ha => hf a cs ha us hus ?_
  rw [heq, List.length_append] at hlen
  omega

theorem Takes.next (hp : Takes n p q R)
    (hf : ∀ a cs, R a cs → Takes n (f a) (g a) fun b ds => S b (cs ++ ds)) : Takes n (p >>= f) (q >>= g) S :=
  hp.bind fun a cs ha => (hf a cs ha).mono (Nat.sub_le _ _)

/-- Behind a parser that takes a token there is one token less. -/
theorem Takes.step (hp : Takes (n + 1) p q R) (hne : ∀ a cs, R a cs → cs ≠ [])
    (hf : ∀ a cs, R a cs → Takes n (f a) (g a) fun b ds => S b (cs ++ ds)) :
    Takes (n + 1) (p >>= f) (q >>= g) S := by
  refine hp.bind fun a cs ha => (hf a cs ha).mono ?_
  have := List.length_pos_of_ne_nil (hne a cs ha)
  omega

theorem Takes.last {h : α → β} (hp : Takes n p q R) (hS : ∀ a cs, R a cs → S (h a) cs) :
    Takes n (p >>= fun a => Pure.pure (h a)) (q >>= fun a => Pure.pure (h a)) S := by
  refine hp.next fun a cs ha => .pure ?_
  rw [List.append_nil]
  exact hS a cs ha

theorem TakesFrom.next (hp : TakesFrom t n p q R)
    (hf : ∀ a cs, R a cs → Takes n (f a) (g a) fun b ds => S b (cs ++ ds)) :
    TakesFrom t n (p >>= f) (q >>= g) S := by
  intro ts hts hlen
  refine (hp ts hts hlen).bind fun a cs us heq hus ha => hf a cs ha us hus ?_
  rw [heq, List.length_append] at hlen
  omega

theorem Takes.ite {c : Prop} [Decidable c] {p' q' : Parser α} (hp : c → Takes n p q R)
    (hq : ¬c → Takes n p' q' R) : Takes n (if c then p else p') (if c then q else q') R := by
  split
  · next h => exact hp h
  · next h => exact hq h

theorem TakesFrom.ite {c : Prop} [Decidable c] {p' q' : Parser α} (hp : c → TakesFrom t n p q R)
    (hq : ¬c → TakesFrom t n p' q' R) : TakesFrom t n (if c then p else p') (if c then q else q') R := by
  split
  · next h => exact hp h
  · next h => exact hq h

/-! ### Failures and looks ahead -/

theorem takes_failAt (pos : Pos) {cause : Cause} (h : cause ≠ .exhausted) :
    Takes n (failAt pos cause) (failAt pos cause) R :=
  fun ts hts _ => ⟨rfl, .error (List.nil_append ts).symm hts h⟩

theorem Takes.current {f g : Token → Parser β} (h : ∀ t, TakesFrom t n (f t) (g t) S) :
    Takes n (current >>= f) (current >>= g) S := by
  intro ts hts hlen
  obtain ⟨t, us, rfl⟩ := hts.exists_cons
  exact h t us hts hlen

theorem takes_fail {cause : Cause} (h : cause ≠ .exhausted) : Takes n (fail cause) (fail cause) R :=
  .current fun t => (takes_failAt t.pos h).from t

theorem takes_failFor (w : Wanted) : Takes n (failFor w) (failFor w) R :=
  .current fun t => (takes_failAt t.pos (by simp)).from t

/-- Nothing happens behind a failure. -/
theorem Takes.never (hp : Takes n p q fun _ _ => False) : Takes n (p >>= f) (q >>= g) S :=
  hp.next fun _ _ h => h.elim

/-- A parser that takes nothing and does not fail. -/
def Peeks (p : Parser α) : Prop := ∀ ts, Ended ts → ∃ a, p ts = .ok a ts

theorem TakesAt.look {a : α} (hp : p ts = .ok a ts) (hf : TakesAt ts (f a) (g a) S) :
    TakesAt ts (p >>= f) (p >>= g) S := by
  unfold TakesAt
  rw [bind_eq_of_ok hp, bind_eq_of_ok hp]
  exact hf

theorem Takes.look (hp : Peeks p) (hf : ∀ a, Takes n (f a) (g a) S) : Takes n (p >>= f) (p >>= g) S := by
  intro ts hts hlen
  obtain ⟨a, ha⟩ := hp ts hts
  exact .look ha (hf a ts hts hlen)

theorem TakesFrom.look (hp : Peeks p) (hf : ∀ a, TakesFrom t n (f a) (g a) S) :
    TakesFrom t n (p >>= f) (p >>= g) S := by
  intro ts hts hlen
  obtain ⟨a, ha⟩ := hp (t :: ts) hts
  exact .look ha (hf a ts hts hlen)

theorem peeks_front {h : Token → α} : Peeks (Parser.current >>= fun t => Pure.pure (h t)) := by
  intro ts hts
  obtain ⟨t, us, rfl⟩ := hts.exists_cons
  exact ⟨h t, rfl⟩

theorem peeks_sees (s : String) : Peeks (sees s) := peeks_front

theorem peeks_seesAny (texts : List String) : Peeks (seesAny texts) := peeks_front

theorem peeks_seesKind (k : Token.Kind) : Peeks (seesKind k) := peeks_front

theorem peeks_seesExpr : Peeks seesExpr := peeks_front

theorem peeks_seesType : Peeks seesType := by
  intro ts hts
  obtain ⟨t, us, rfl⟩ := hts.exists_cons
  rw [seesType, bind_eq_of_ok (show Parser.current (t :: us) = .ok t (t :: us) from rfl)]
  split
  · exact ⟨true, rfl⟩
  split
  · exact ⟨false, rfl⟩
  · exact ⟨_, rfl⟩

/-- A bound is taken from the tokens that are left. -/
theorem Takes.left {f g : Nat → Parser β} (h : ∀ k ≤ n, Takes k (f k) (g k) S) :
    Takes n (left >>= f) (left >>= g) S :=
  fun ts hts hlen => h ts.length hlen ts hts (Nat.le_refl _)

/-! ### The token in front -/

theorem TakesFrom.advance {f g : Token → Parser β} (ht : t.kind ≠ .eof)
    (h : Takes n (f t) (g t) fun b ds => S b (t :: ds)) :
    TakesFrom t (n + 1) (advance >>= f) (advance >>= g) S := by
  intro ts hts hlen
  obtain ⟨hsame, hout⟩ := h ts (hts.tail ht) (Nat.le_of_succ_le_succ hlen)
  unfold TakesAt
  rw [bind_eq_of_ok (advance_eq ht), bind_eq_of_ok (advance_eq ht)]
  exact ⟨hsame, Outcome.behind (show t :: ts = [t] ++ ts from rfl) hout⟩

theorem TakesFrom.spelled {f g : Token → Parser β} {s : String} (ht : t.spells s = true)
    (h : Takes n (f t) (g t) fun b ds => S b (t :: ds)) :
    TakesFrom t (n + 1) (Parser.advance >>= f) (Parser.advance >>= g) S :=
  .advance (Token.spells_iff.1 ht).2.2 h

theorem Takes.sees {s : String} {f g : Bool → Parser β}
    (h : ∀ t : Token, TakesFrom t n (f (t.spells s)) (g (t.spells s)) S) :
    Takes n (sees s >>= f) (sees s >>= g) S := by
  intro ts hts hlen
  obtain ⟨t, us, rfl⟩ := hts.exists_cons
  exact h t us hts hlen

theorem Takes.seesAny {texts : List String} {f g : Bool → Parser β}
    (h : ∀ t : Token, TakesFrom t n (f (texts.any t.spells)) (g (texts.any t.spells)) S) :
    Takes n (seesAny texts >>= f) (seesAny texts >>= g) S := by
  intro ts hts hlen
  obtain ⟨t, us, rfl⟩ := hts.exists_cons
  exact h t us hts hlen

theorem Takes.seesKind {k : Token.Kind} {f g : Bool → Parser β}
    (h : ∀ t : Token, TakesFrom t n (f (t.kind = k)) (g (t.kind = k)) S) :
    Takes n (seesKind k >>= f) (seesKind k >>= g) S := by
  intro ts hts hlen
  obtain ⟨t, us, rfl⟩ := hts.exists_cons
  exact h t us hts hlen

theorem TakesFrom.sees {s : String} {f g : Bool → Parser β}
    (h : TakesFrom t n (f (t.spells s)) (g (t.spells s)) S) :
    TakesFrom t n (sees s >>= f) (sees s >>= g) S := h

theorem TakesFrom.seesAny {texts : List String} {f g : Bool → Parser β}
    (h : TakesFrom t n (f (texts.any t.spells)) (g (texts.any t.spells)) S) :
    TakesFrom t n (seesAny texts >>= f) (seesAny texts >>= g) S := h

theorem Takes.take {s : String} {f g : Token → Parser α}
    (h : ∀ t : Token, t.spells s = true → Takes n (f t) (g t) fun a ds => R a (t :: ds))
    (hq : Takes (n + 1) p q R) :
    Takes (n + 1) (Parser.sees s >>= fun b => if b = true then advance >>= f else p)
      (Parser.sees s >>= fun b => if b = true then advance >>= g else q) R :=
  .sees fun t => .ite (fun ht => .spelled ht (h t ht)) fun _ => hq.from t

theorem Takes.takeAny {texts : List String} {f g : Token → Parser α}
    (h : ∀ t : Token, t.text ∈ texts → t.spells t.text = true →
      Takes n (f t) (g t) fun a ds => R a (t :: ds))
    (hq : Takes (n + 1) p q R) :
    Takes (n + 1) (Parser.seesAny texts >>= fun b => if b = true then advance >>= f else p)
      (Parser.seesAny texts >>= fun b => if b = true then advance >>= g else q) R := by
  refine .seesAny fun t => .ite (fun ht => ?_) fun _ => hq.from t
  obtain ⟨s, hs, ht⟩ := List.any_eq_true.1 ht
  obtain rfl := (Token.spells_iff.1 ht).1
  exact .spelled ht (h t hs ht)

theorem takes_advance (ht : t.kind ≠ .eof) :
    TakesFrom t n advance advance fun a cs => cs = [t] ∧ a = t := by
  intro ts hts _
  refine ⟨rfl, ?_⟩
  rw [advance_eq ht]
  exact .ok (show t :: ts = [t] ++ ts from rfl) (hts.tail ht) ⟨rfl, rfl⟩

theorem takes_expect (s : String) :
    Takes n (expect s) (expect s) fun t cs => cs = [t] ∧ t.spells s = true := by
  refine .sees fun t => .ite (fun ht => ?_) fun _ => (takes_failFor _).from t
  refine (takes_advance (Token.spells_iff.1 ht).2.2).imp ?_
  rintro a cs ⟨rfl, rfl⟩
  exact ⟨rfl, ht⟩

theorem takes_expectIdent : Takes n expectIdent expectIdent fun t cs => cs = [t] ∧ t.kind = .ident := by
  refine .seesKind fun t => .ite (fun ht => ?_) fun _ => (takes_failFor _).from t
  have hident : t.kind = .ident := of_decide_eq_true ht
  refine (takes_advance (by simp [hident])).imp ?_
  rintro a cs ⟨rfl, rfl⟩
  exact ⟨rfl, hident⟩

theorem Takes.expect {s : String} {f g : Token → Parser β}
    (h : ∀ t : Token, t.spells s = true → Takes n (f t) (g t) fun b ds => S b (t :: ds)) :
    Takes (n + 1) (expect s >>= f) (expect s >>= g) S := by
  refine (takes_expect s).step ?_ ?_
  · rintro t cs ⟨rfl, -⟩
    simp
  · rintro t cs ⟨rfl, ht⟩
    exact h t ht

theorem Takes.ident {f g : Token → Parser β}
    (h : ∀ t : Token, t.kind = .ident → Takes n (f t) (g t) fun b ds => S b (t :: ds)) :
    Takes n (expectIdent >>= f) (expectIdent >>= g) S := by
  refine takes_expectIdent.next ?_
  rintro t cs ⟨rfl, ht⟩
  exact h t ht

/-- A token with a text is not the end. -/
theorem TakesFrom.worded (ht : t.text ≠ "") (h : t.kind ≠ .eof → TakesFrom t n p q R) : TakesFrom t n p q R :=
  fun ts hts => h (hts.kind_ne_eof ht) ts hts

/-- What is taken starts with the token in front. -/
theorem TakesFrom.starting (h : TakesFrom t n p q fun a cs => cs ≠ [] ∧ (cs.head? = some t → R a cs)) :
    TakesFrom t n p q R := by
  intro ts hts hlen
  obtain ⟨hsame, hout⟩ := h ts hts hlen
  refine ⟨hsame, ?_⟩
  generalize p (t :: ts) = r at hout
  cases hout with
  | error heq hus he => exact .error heq hus he
  | @ok a cs us heq hus ha =>
    obtain ⟨c, cs, rfl⟩ := List.exists_cons_of_ne_nil ha.1
    obtain ⟨rfl, -⟩ := List.cons_eq_cons.1 heq
    exact .ok heq hus (ha.2 rfl)

end Taking

/-! ### Recursion -/

section Recursion

variable {β : Type} {n : Nat} {turn turn' : β → β}

/-- Two recursions are related when both have `n` turns left, whatever they come to at the bottom. -/
def Unrolled (n : Nat) (turn turn' : β → β) (Rel : β → β → Prop) : Prop :=
  ∀ f g : Nat → β, (∀ m, f (m + 1) = turn (f m)) → (∀ m, g (m + 1) = turn' (g m)) →
    ∀ m m', n ≤ m → n ≤ m' → Rel (f m) (g m')

/-- A relation that holds at the bottom, as nothing is asked there, and is kept by every turn. -/
theorem Unrolled.of_turn (Rel : Nat → β → β → Prop) (hzero : ∀ p q, Rel 0 p q)
    (hturn : ∀ k < n, ∀ p q, Rel k p q → Rel (k + 1) (turn p) (turn' q)) :
    Unrolled n turn turn' (Rel n) := by
  intro f g hf hg
  suffices h : ∀ k ≤ n, ∀ m m', k ≤ m → k ≤ m' → Rel k (f m) (g m') from h n (Nat.le_refl n)
  intro k
  induction k with
  | zero => exact fun _ m m' _ _ => hzero _ _
  | succ k ih =>
    intro hk m m' hm hm'
    obtain ⟨m, rfl⟩ := Nat.exists_eq_add_of_lt hm
    obtain ⟨m', rfl⟩ := Nat.exists_eq_add_of_lt hm'
    rw [hf, hg]
    exact hturn k hk _ _ (ih (Nat.le_of_succ_le hk) _ _ (Nat.le_add_right _ _) (Nat.le_add_right _ _))

variable {α : Type} {R : α → List Token → Prop}

theorem unrolled_takes {turn turn' : Parser α → Parser α}
    (hturn : ∀ k < n, ∀ p q, Takes k p q R → Takes (k + 1) (turn p) (turn' q) R) :
    Unrolled n turn turn' fun p q => Takes n p q R :=
  .of_turn (fun k p q => Takes k p q R) (fun _ _ => .zero) hturn

/-- The bound is not less than the tokens left, so it is not what ends the recursion. -/
theorem Takes.bounded {turn turn' : Parser α → Parser α} {f g : Nat → Parser α}
    (h : ∀ k ≤ n, Unrolled k turn turn' fun p q => Takes k p q R) (hf : ∀ m, f (m + 1) = turn (f m))
    (hg : ∀ m, g (m + 1) = turn' (g m)) : Takes n (Parser.left >>= f) (Parser.left >>= g) R :=
  .left fun k hk => h k hk f g hf hg k k (Nat.le_refl k) (Nat.le_refl k)

/-- Going on from a value: what is taken is added to the tokens that belong to it. -/
def Onward (n : Nat) (p q : α → Parser α) (R : α → List Token → Prop) : Prop :=
  ∀ a cs, R a cs → Takes n (p a) (q a) fun b ds => R b (cs ++ ds)

theorem unrolled_onward {turn turn' : (α → Parser α) → α → Parser α}
    (hturn : ∀ k < n, ∀ p q, Onward k p q R → Onward (k + 1) (turn p) (turn' q) R) :
    Unrolled n turn turn' fun p q => Onward n p q R :=
  .of_turn (fun k p q => Onward k p q R) (fun _ _ _ _ _ => .zero) hturn

theorem Onward.bounded {turn turn' : (α → Parser α) → α → Parser α} {f g : Nat → α → Parser α}
    (h : ∀ k ≤ n, Unrolled k turn turn' fun p q => Onward k p q R) (hf : ∀ m, f (m + 1) = turn (f m))
    (hg : ∀ m, g (m + 1) = turn' (g m)) :
    Onward n (fun a => left >>= fun m => f m a) (fun a => left >>= fun m => g m a) R :=
  fun a cs ha => .left fun k hk => h k hk f g hf hg k k (Nat.le_refl k) (Nat.le_refl k) a cs ha

end Recursion

end Snack.Parser
