import Snack.Parser.Basic
import Snack.Proofs.Steps
import Snack.Proofs.Tree.Grammar

/-! Running a parser on tokens that are known: from the front of the tokens it is seen which way it takes,
and what it gives is put together from what its parts give. -/

namespace Snack.Parser

open Snack.Tree
open Token (Kind)

/-- What holds of the token in front. -/
def Front (P : Token → Prop) (ts : List Token) : Prop := ∃ t us, ts = t :: us ∧ P t

theorem Front.cons {P : Token → Prop} {t : Token} {ts : List Token} (h : P t) : Front P (t :: ts) :=
  ⟨t, ts, rfl, h⟩

theorem Front.imp {P Q : Token → Prop} {ts : List Token} (h : Front P ts) (hPQ : ∀ t, P t → Q t) :
    Front Q ts := by
  obtain ⟨t, us, rfl, ht⟩ := h
  exact .cons (hPQ t ht)

section Running

variable {α β : Type} {p q : Parser α} {f : α → Parser β} {R : α → Prop} {S : β → Prop}
variable {a : α} {c : Token} {cs ds ts us : List Token} {s : String} {texts : List String}

theorem bind_eq_of_ok (hp : p ts = .ok a us) : (p >>= f) ts = f a us := by
  show EStateM.bind p f ts = f a us
  rw [EStateM.bind, hp]

theorem bind_eq_of_error {e : Error} (hp : p ts = .error e us) : (p >>= f) ts = .error e us := by
  show EStateM.bind p f ts = .error e us
  rw [EStateM.bind, hp]

theorem sees_eq {b : Bool} (h : Front (fun t => t.spells s = b) ts) : sees s ts = .ok b ts := by
  obtain ⟨t, us, rfl, rfl⟩ := h
  rfl

theorem seesAny_eq_false (h : Front (fun t => ∀ s ∈ texts, t.spells s = false) ts) :
    seesAny texts ts = .ok false ts := by
  obtain ⟨t, us, rfl, h⟩ := h
  have hany : texts.any t.spells = false := by simpa using h
  rw [← hany]
  rfl

theorem seesKind_eq {k : Kind} {b : Bool} (h : Front (fun t => decide (t.kind = k) = b) ts) :
    seesKind k ts = .ok b ts := by
  obtain ⟨t, us, rfl, rfl⟩ := h
  rfl

theorem advance_eq (hc : c.kind ≠ .eof) : advance (c :: ts) = .ok c ts := by
  rw [advance, if_neg hc]

theorem expect_eq (hc : c.spells s = true) : expect s (c :: ts) = .ok c ts := by
  rw [expect, bind_eq_of_ok (sees_eq (.cons hc)), if_pos rfl]
  exact advance_eq (Token.spells_iff.1 hc).2.2

theorem take_eq {g : Token → Parser α} (hc : c.spells s = true) :
    (sees s >>= fun b => if b = true then advance >>= g else q) (c :: ts) = g c ts := by
  rw [bind_eq_of_ok (sees_eq (.cons hc)), if_pos rfl]
  exact bind_eq_of_ok (advance_eq (Token.spells_iff.1 hc).2.2)

theorem skip_eq (h : Front (fun t => t.spells s = false) ts) :
    (sees s >>= fun b => if b = true then p else q) ts = q ts := by
  rw [bind_eq_of_ok (sees_eq h), if_neg Bool.false_ne_true]

theorem takeAny_eq {g : Token → Parser α} (hs : s ∈ texts) (hc : c.spells s = true) :
    (seesAny texts >>= fun b => if b = true then advance >>= g else q) (c :: ts) = g c ts := by
  have hany : texts.any c.spells = true := List.any_eq_true.2 ⟨s, hs, hc⟩
  have hsees : seesAny texts (c :: ts) = .ok true (c :: ts) := by
    rw [← hany]
    rfl
  rw [bind_eq_of_ok hsees, if_pos rfl]
  exact bind_eq_of_ok (advance_eq (Token.spells_iff.1 hc).2.2)

theorem skipAny_eq (h : Front (fun t => ∀ s ∈ texts, t.spells s = false) ts) :
    (seesAny texts >>= fun b => if b = true then p else q) ts = q ts := by
  rw [bind_eq_of_ok (seesAny_eq_false h), if_neg Bool.false_ne_true]

/-- The parser takes the tokens `cs` in front of `us` and gives a value with the property. -/
def Parses (p : Parser α) (cs us : List Token) (R : α → Prop) : Prop :=
  ∃ a, p (cs ++ us) = .ok a us ∧ R a

theorem Parses.of_eq {p' : Parser α} (h : p (cs ++ us) = p' (ds ++ us)) (hp : Parses p' ds us R) :
    Parses p cs us R := by
  obtain ⟨a, ha, hR⟩ := hp
  exact ⟨a, h.trans ha, hR⟩

theorem Parses.pure (h : R a) : Parses (pure a) [] us R := ⟨a, rfl, h⟩

theorem Parses.bind (hp : Parses p cs (ds ++ us) R) (hf : ∀ a, R a → Parses (f a) ds us S) :
    Parses (p >>= f) (cs ++ ds) us S := by
  obtain ⟨a, hp, ha⟩ := hp
  refine .of_eq ?_ (hf a ha)
  rw [List.append_assoc]
  exact bind_eq_of_ok hp

/-- The last parser that takes tokens. -/
theorem Parses.last (hp : Parses p cs us R) (hf : ∀ a, R a → Parses (f a) [] us S) :
    Parses (p >>= f) cs us S := by
  rw [← List.append_nil cs]
  exact Parses.bind hp hf

theorem Parses.look (hp : p (cs ++ us) = .ok a (cs ++ us)) (hf : Parses (f a) cs us S) :
    Parses (p >>= f) cs us S :=
  .of_eq (bind_eq_of_ok hp) hf

theorem Parses.current {f : Token → Parser β} (hf : Parses (f c) (c :: cs) us S) :
    Parses (current >>= f) (c :: cs) us S :=
  .look rfl hf

theorem Parses.left {f : Nat → Parser β} (hf : Parses (f (cs ++ us).length) cs us S) :
    Parses (left >>= f) cs us S :=
  .look rfl hf

theorem Parses.advance {g : Token → Parser β} (hc : c.kind ≠ .eof) (hg : Parses (g c) cs us S) :
    Parses (advance >>= g) (c :: cs) us S :=
  .of_eq (bind_eq_of_ok (advance_eq hc)) hg

theorem Parses.take {g : Token → Parser α} (hc : c.spells s = true) (hg : Parses (g c) cs us R) :
    Parses (sees s >>= fun b => if b = true then Parser.advance >>= g else q) (c :: cs) us R :=
  .of_eq (take_eq hc) hg

theorem Parses.skip (h : Front (fun t => t.spells s = false) (cs ++ us)) (hq : Parses q cs us R) :
    Parses (sees s >>= fun b => if b = true then p else q) cs us R :=
  .of_eq (skip_eq h) hq

theorem Parses.takeAny {g : Token → Parser α} (hs : s ∈ texts) (hc : c.spells s = true)
    (hg : Parses (g c) cs us R) :
    Parses (seesAny texts >>= fun b => if b = true then Parser.advance >>= g else q) (c :: cs) us R :=
  .of_eq (takeAny_eq hs hc) hg

theorem Parses.skipAny (h : Front (fun t => ∀ s ∈ texts, t.spells s = false) (cs ++ us))
    (hq : Parses q cs us R) :
    Parses (seesAny texts >>= fun b => if b = true then p else q) cs us R :=
  .of_eq (skipAny_eq h) hq

theorem Parses.expect {g : Token → Parser β} (hc : c.spells s = true) (hg : Parses (g c) cs us S) :
    Parses (expect s >>= g) (c :: cs) us S :=
  .of_eq (bind_eq_of_ok (expect_eq hc)) hg

theorem expectIdent_eq (hc : c.kind = .ident) : expectIdent (c :: ts) = .ok c ts := by
  rw [expectIdent, bind_eq_of_ok (seesKind_eq (.cons (decide_eq_true hc))), if_pos rfl]
  exact advance_eq (by simp [hc])

theorem kind_of_expectIdent (h : expectIdent ts = .ok c us) : c.kind = .ident := by
  cases ts with
  | nil => cases h
  | cons d ts =>
    by_cases hd : d.kind = .ident
    · rw [expectIdent_eq hd] at h
      cases h
      exact hd
    · rw [expectIdent, bind_eq_of_ok (seesKind_eq (.cons (decide_eq_false hd))),
        if_neg Bool.false_ne_true] at h
      cases h

theorem parses_expectIdent (hc : c.kind = .ident) : Parses expectIdent [c] us (·.text = c.text) :=
  ⟨c, expectIdent_eq hc, rfl⟩

/-- Behind the tokens `cs` the parser is in a loop that has room for all the tokens left. -/
def Enters (p : Parser α) (cs us : List Token) (loop : Nat → α → Parser α) (R : α → Prop) : Prop :=
  ∃ k a, p (cs ++ us) = loop k a us ∧ us.length ≤ k ∧ R a

variable {loop : Nat → α → Parser α}

theorem Parses.enters (hp : Parses p cs us R) :
    Enters (p >>= fun a => Parser.left >>= fun k => loop k a) cs us loop R := by
  obtain ⟨a, hp, ha⟩ := hp
  exact ⟨us.length, a, bind_eq_of_ok hp, le_rfl, ha⟩

theorem Enters.of_eq {p' : Parser α} (h : p (cs ++ us) = p' (ds ++ us)) (hp : Enters p' ds us loop R) :
    Enters p cs us loop R := by
  obtain ⟨k, a, ha, hk, hR⟩ := hp
  exact ⟨k, a, h.trans ha, hk, hR⟩

theorem Enters.look {f : β → Parser α} {p : Parser β} {b : β} (hp : p (cs ++ us) = .ok b (cs ++ us))
    (hf : Enters (f b) cs us loop R) : Enters (p >>= f) cs us loop R :=
  .of_eq (bind_eq_of_ok hp) hf

theorem Enters.start (ha : R a) :
    Enters (Pure.pure a >>= fun a => Parser.left >>= fun k => loop k a) [] us loop R :=
  ⟨us.length, a, rfl, le_rfl, ha⟩

theorem Enters.bind {f : β → Parser α} {p : Parser β} (hp : Parses p cs (ds ++ us) S)
    (hf : ∀ b, S b → Enters (f b) ds us loop R) : Enters (p >>= f) (cs ++ ds) us loop R := by
  obtain ⟨b, hp, hb⟩ := hp
  refine .of_eq ?_ (hf b hb)
  rw [List.append_assoc]
  exact bind_eq_of_ok hp

theorem Enters.last {f : β → Parser α} {p : Parser β} (hp : Parses p cs us S)
    (hf : ∀ b, S b → Enters (f b) [] us loop R) : Enters (p >>= f) cs us loop R := by
  rw [← List.append_nil cs]
  exact Enters.bind hp hf

theorem Enters.advance {g : Token → Parser α} (hc : c.kind ≠ .eof) (hg : Enters (g c) cs us loop R) :
    Enters (advance >>= g) (c :: cs) us loop R :=
  .of_eq (bind_eq_of_ok (advance_eq hc)) hg

theorem Enters.expect {g : Token → Parser α} (hc : c.spells s = true)
    (hg : Enters (g c) cs us loop R) : Enters (expect s >>= g) (c :: cs) us loop R :=
  .of_eq (bind_eq_of_ok (expect_eq hc)) hg

theorem Enters.takeAny {g : Token → Parser α} (hs : s ∈ texts) (hc : c.spells s = true)
    (hg : Enters (g c) cs us loop R) :
    Enters (seesAny texts >>= fun b => if b = true then Parser.advance >>= g else q) (c :: cs) us loop R :=
  .of_eq (takeAny_eq hs hc) hg

theorem Enters.again {k : Nat} (hk : us.length ≤ k) (ha : R a) : Enters (loop k a) [] us loop R :=
  ⟨k, a, rfl, hk, ha⟩

/-- A turn of the loop takes a token, so there is room for the tokens left behind it. -/
theorem Enters.step {R' : α → Prop} (h : Enters p cs (ds ++ us) loop R) (hds : ds ≠ [])
    (hstep : ∀ k a, R a → us.length ≤ k → Enters (loop (k + 1) a) ds us loop R') :
    Enters p (cs ++ ds) us loop R' := by
  obtain ⟨k, a, hp, hk, ha⟩ := h
  have hpos := List.length_pos_of_ne_nil hds
  rw [List.length_append] at hk
  obtain ⟨k, rfl⟩ : ∃ k', k = k' + 1 := ⟨k - 1, by omega⟩
  refine .of_eq ?_ (hstep k a ha (by omega))
  rw [List.append_assoc, hp]

theorem Enters.parses (h : Enters p cs us loop R) (hstop : ∀ k a, loop k a us = .ok a us) :
    Parses p cs us R := by
  obtain ⟨k, a, hp, -, ha⟩ := h
  exact ⟨a, by rw [hp, hstop], ha⟩

end Running

/-! ### Tokens of a word -/

section Words

variable {cs : List Token} {c : Token} {s : String} {L M : Language Lexeme}

theorem exists_of_mul (h : cs.map Token.lexeme ∈ L * M) :
    ∃ ds es, cs = ds ++ es ∧ ds.map Token.lexeme ∈ L ∧ es.map Token.lexeme ∈ M := by
  obtain ⟨xs, hxs, ys, hys, heq⟩ := Language.mem_mul.1 h
  obtain ⟨ds, es, rfl, rfl, rfl⟩ := List.map_eq_append_iff.1 heq.symm
  exact ⟨ds, es, rfl, hxs, hys⟩

theorem exists_of_single {x : Lexeme} (h : cs.map Token.lexeme ∈ ({[x]} : Language Lexeme)) :
    ∃ c, cs = [c] ∧ c.lexeme = x := by
  obtain ⟨c, ds, rfl, hc, hds⟩ := List.map_eq_cons_iff.1 (show cs.map Token.lexeme = [x] from h)
  exact ⟨c, by rw [List.map_eq_nil_iff.1 hds], hc⟩

theorem exists_of_word_mul (h : cs.map Token.lexeme ∈ word s * M) :
    ∃ c ds, cs = c :: ds ∧ c.lexeme = .ofText s ∧ ds.map Token.lexeme ∈ M := by
  obtain ⟨ds, es, rfl, hds, hes⟩ := exists_of_mul h
  obtain ⟨c, rfl, hc⟩ := exists_of_single hds
  exact ⟨c, es, rfl, hc, hes⟩

theorem exists_of_mul_word (h : cs.map Token.lexeme ∈ L * word s) :
    ∃ ds c, cs = ds ++ [c] ∧ ds.map Token.lexeme ∈ L ∧ c.lexeme = .ofText s := by
  obtain ⟨ds, es, rfl, hds, hes⟩ := exists_of_mul h
  obtain ⟨c, rfl, hc⟩ := exists_of_single hes
  exact ⟨ds, c, rfl, hds, hc⟩

theorem not_spells_of_lexeme {s' : String} (h : c.lexeme = .ofText s) (hne : s ≠ s') :
    c.spells s' = false :=
  Token.spells_eq_false (by rw [Token.text_of_lexeme h]; exact hne)

theorem not_spells_any {texts : List String} (h : c.lexeme = .ofText s) (hs : s ∉ texts) :
    ∀ s' ∈ texts, c.spells s' = false :=
  fun _ hs' => not_spells_of_lexeme h (ne_of_mem_of_not_mem hs' hs).symm

theorem not_spells_of_kind {s' : String} (h : c.lexeme = .ofText s) (hne : Kind.ofText s ≠ .ofText s') :
    c.spells s' = false :=
  not_spells_of_lexeme h fun heq => hne (congrArg Kind.ofText heq)

end Words

end Snack.Parser
