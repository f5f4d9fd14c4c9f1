import Mathlib.Data.List.Find
import Snack.Proofs.Token.Layout
import Snack.Proofs.Token.Places

/-! Texts that are put together at a line break. Nothing that can be read goes on over the end of a line but
a block comment, and that ends with its mark. So what was read before the break stays as it was, and what
comes after it is read as if it stood alone, only further down. -/

namespace Snack

/-- The place `n` lines further down. -/
def Pos.lowered (n : Nat) (p : Pos) : Pos := ⟨p.line + n, p.col⟩

theorem Pos.lowered_zero (p : Pos) : p.lowered 0 = p := by simp [lowered]

theorem Pos.lowered_succ (n : Nat) (p : Pos) : p.lowered (n + 1) = (p.lowered n).down := by
  simp [lowered, down, Int.add_assoc]

namespace Token

/-! ### Lexemes before a line break -/

section Runs

variable {p : Char → Bool} {stop : Char} (hstop : p stop = false)

include hstop

theorem takeWhile_append_stop (cs bs : List Char) : (cs ++ stop :: bs).takeWhile p = cs.takeWhile p := by
  induction cs with
  | nil => simp [hstop]
  | cons c cs ih => by_cases hc : p c = true <;> simp [hc, ih]

theorem dropWhile_append_stop (cs bs : List Char) :
    (cs ++ stop :: bs).dropWhile p = cs.dropWhile p ++ stop :: bs := by
  induction cs with
  | nil => simp [hstop]
  | cons c cs ih => by_cases hc : p c = true <;> simp [hc, ih]

end Runs

theorem commentTail_append {p q : Pos} {cs rest : List Char} (h : commentTail p cs = some (q, rest))
    (ys : List Char) : commentTail p (cs ++ ys) = some (q, rest ++ ys) := by
  induction cs generalizing p with
  | nil => cases h
  | cons c cs ih =>
    rw [commentTail] at h
    rw [List.cons_append, commentTail]
    split at h
    · next hc =>
      cases h
      rw [if_pos hc]
    · next hc =>
      rw [if_neg hc]
      exact ih h

theorem fraction_feed (cs bs : List Char) :
    fraction (cs ++ '\n' :: bs) = ((fraction cs).1, (fraction cs).2 ++ '\n' :: bs) := by
  have hstop : isDigit '\n' = false := by decide
  rcases cs with _ | ⟨c, _ | ⟨d, cs⟩⟩
  · simp [fraction]
  · by_cases hc : c = '.' <;> simp [fraction, hc, hstop]
  · by_cases hc : c = '.'
    · subst hc
      by_cases hd : isDigit d = true <;>
        simp [fraction, hd, takeWhile_append_stop hstop, dropWhile_append_stop hstop]
    · simp [fraction, hc]

theorem exponentSign_feed (cs bs : List Char) :
    exponentSign (cs ++ '\n' :: bs) = ((exponentSign cs).1, (exponentSign cs).2 ++ '\n' :: bs) := by
  cases cs with
  | nil => simp [exponentSign]
  | cons c cs => by_cases hc : (c == '+' || c == '-') = true <;> simp [exponentSign, hc]

theorem exponent?_feed (cs bs : List Char) :
    exponent? (cs ++ '\n' :: bs) = (exponent? cs).map fun x => (x.1, x.2 ++ '\n' :: bs) := by
  have hstop : isDigit '\n' = false := by decide
  cases cs with
  | nil => simp [exponent?]
  | cons c cs =>
    rw [List.cons_append, exponent?, exponent?, exponentSign_feed]
    dsimp only
    rw [takeWhile_append_stop hstop, dropWhile_append_stop hstop]
    split
    · split <;> rfl
    · rfl

theorem number?_feed (cs bs : List Char) :
    number? (cs ++ '\n' :: bs) = (number? cs).map fun x => (x.1, x.2 ++ '\n' :: bs) := by
  have hstop : isDigit '\n' = false := by decide
  unfold number?
  rw [takeWhile_append_stop hstop, dropWhile_append_stop hstop, fraction_feed]
  dsimp only
  rw [exponent?_feed]
  cases exponent? (fraction (cs.dropWhile isDigit)).2 <;> rfl

theorem stringTail_append {start p q : Pos} {cs value rest : List Char}
    (h : stringTail start p cs = .ok (value, q, rest)) (ys : List Char) :
    stringTail start p (cs ++ ys) = .ok (value, q, rest ++ ys) := by
  have htail := tail_stringTail start p cs
  rw [h] at htail
  cases htail with
  | closed hbody =>
    rw [List.append_assoc, List.cons_append]
    exact hbody.stringTail_eq start p (rest ++ ys)

theorem isPrefixOf_append_feed {op : List Char} (h : '\n' ∉ op) (cs bs : List Char) :
    op.isPrefixOf (cs ++ '\n' :: bs) = op.isPrefixOf cs := by
  induction op generalizing cs with
  | nil => simp
  | cons x op ih =>
    rw [List.mem_cons, not_or] at h
    cases cs with
    | nil => simp [List.isPrefixOf, Ne.symm h.1]
    | cons c cs => simp [List.isPrefixOf, ih h.2]

theorem operator?_feed (cs bs : List Char) :
    operator? (cs ++ '\n' :: bs) = (operator? cs).map fun x => (x.1, x.2 ++ '\n' :: bs) := by
  have hsame : operators.find? (fun op => op.isPrefixOf (cs ++ '\n' :: bs)) =
      operators.find? fun op => op.isPrefixOf cs := by
    apply List.find?_congr
    intro op hop
    exact isPrefixOf_append_feed (Lexes.op hop).inline cs bs
  unfold operator?
  rw [hsame]
  cases hfind : operators.find? fun op => op.isPrefixOf cs with
  | none => rfl
  | some op =>
    obtain ⟨hpre, -⟩ := List.find?_eq_some_iff_append.1 hfind
    have hlength := (List.isPrefixOf_iff_prefix.1 hpre).length_le
    simp [List.drop_append_of_le_length hlength]

/-! ### Pieces before a line break -/

/-- The piece with more text behind it. -/
def Piece.append (ys : List Char) : Piece → Piece
  | .gap p rest => .gap p (rest ++ ys)
  | .token t p rest => .token t p (rest ++ ys)

theorem Piece.emoji_feed (kind : Kind) (p : Pos) (c : Char) (cs bs : List Char) :
    Piece.emoji kind p c (cs ++ '\n' :: bs) = (Piece.emoji kind p c cs).append ('\n' :: bs) := by
  cases cs with
  | nil => rfl
  | cons d cs =>
    rw [List.cons_append, emoji, emoji]
    split <;> rfl

/-- A piece that can be read is the same before a line break. -/
theorem piece_feed {p : Pos} {c : Char} {cs : List Char} {x : Piece} (h : piece p c cs = .ok x)
    (bs : List Char) : piece p c (cs ++ '\n' :: bs) = .ok (x.append ('\n' :: bs)) := by
  have hword : isWordChar '\n' = false := by decide
  have hline : (cs ++ '\n' :: bs).dropWhile (· != '\n') = cs.dropWhile (· != '\n') ++ '\n' :: bs :=
    dropWhile_append_stop (by decide) cs bs
  revert h
  unfold piece
  rw [← List.cons_append, number?_feed, operator?_feed, Piece.emoji_feed, Piece.emoji_feed,
    takeWhile_append_stop hword, dropWhile_append_stop hword, hline]
  by_cases hblank : isBlank c = true
  · rw [if_pos hblank, if_pos hblank]
    rintro ⟨⟩
    rfl
  rw [if_neg hblank, if_neg hblank]
  by_cases hcomment : (c == lineComment) = true
  · rw [if_pos hcomment, if_pos hcomment]
    rintro ⟨⟩
    rfl
  rw [if_neg hcomment, if_neg hcomment]
  by_cases hblock : (c == blockComment) = true
  · rw [if_pos hblock, if_pos hblock]
    cases htail : commentTail (p.after c) cs with
    | none => rintro ⟨⟩
    | some y =>
      rw [commentTail_append htail]
      rintro ⟨⟩
      rfl
  rw [if_neg hblock, if_neg hblock]
  by_cases hdigit : isDigit c = true
  · rw [if_pos hdigit, if_pos hdigit]
    cases number? (c :: cs) with
    | none => rintro ⟨⟩
    | some y =>
      rintro ⟨⟩
      rfl
  rw [if_neg hdigit, if_neg hdigit]
  by_cases hquote : (c == '"') = true
  · rw [if_pos hquote, if_pos hquote]
    cases htail : stringTail p (p.after c) cs with
    | error e => rintro ⟨⟩
    | ok y =>
      rw [stringTail_append htail]
      rintro ⟨⟩
      rfl
  rw [if_neg hquote, if_neg hquote]
  by_cases hletter : isLetter c = true
  · rw [if_pos hletter, if_pos hletter]
    rintro ⟨⟩
    rfl
  rw [if_neg hletter, if_neg hletter]
  by_cases hkeyword : Keyword.symbols.contains c = true
  · rw [if_pos hkeyword, if_pos hkeyword]
    rintro ⟨⟩
    rfl
  rw [if_neg hkeyword, if_neg hkeyword]
  by_cases htype : (Prim.ofSymbol? c).isSome = true
  · rw [if_pos htype, if_pos htype]
    rintro ⟨⟩
    rfl
  rw [if_neg htype, if_neg htype]
  cases operator? (c :: cs) with
  | none => rintro ⟨⟩
  | some y =>
    rintro ⟨⟩
    rfl

/-! ### Whole texts -/

theorem scanFrom_break {m : Nat} {p : Pos} {bs : List Char} (hm : bs.length < m) :
    scanFrom m p ('\n' :: bs) = (scanFrom bs.length (p.after '\n') bs).map ([] ++ ·) := by
  obtain ⟨m, rfl⟩ := Nat.exists_eq_add_one.2 (Nat.zero_lt_of_lt hm)
  show scanFrom m (p.after '\n') bs = _
  rw [scanFrom_eq (show bs.length ≤ m by omega) (Nat.le_refl _)]
  cases scanFrom bs.length (p.after '\n') bs <;> rfl

/-- What is read before a line break stays, and reading goes on behind the break. -/
theorem scanFrom_feed {n m : Nat} {p : Pos} {cs : List Char} {ts : List Token} (bs : List Char)
    (h : scanFrom n p cs = .ok ts) (hn : cs.length ≤ n) (hm : cs.length + bs.length < m) :
    ∃ body q, ts = body ++ [endAt q] ∧
      scanFrom m p (cs ++ '\n' :: bs) = (scanFrom bs.length (q.after '\n') bs).map (body ++ ·) := by
  -- one piece after the other; each is the same before the break
  induction n generalizing m p cs ts with
  | zero =>
    obtain rfl := List.eq_nil_of_length_eq_zero (Nat.le_zero.1 hn)
    cases h
    exact ⟨[], p, rfl, scanFrom_break (by simpa using hm)⟩
  | succ n ih =>
    cases cs with
    | nil =>
      cases h
      exact ⟨[], p, rfl, scanFrom_break (by simpa using hm)⟩
    | cons c cs =>
      obtain ⟨m, rfl⟩ := Nat.exists_eq_add_one.2 (Nat.zero_lt_of_lt hm)
      rw [List.length_cons] at hn hm
      rw [scanFrom] at h
      rw [List.cons_append, scanFrom]
      cases hpiece : piece p c cs with
      | error e =>
        rw [hpiece] at h
        cases h
      | ok x =>
        have hrest := (rest_of_piece hpiece).length_le
        rw [hpiece] at h
        rw [piece_feed hpiece]
        cases x with
        | gap q rest =>
          simp only [Piece.rest] at hrest
          exact ih h (by omega) (by omega)
        | token t q rest =>
          simp only [Piece.rest] at hrest
          dsimp only at h
          cases hscan : scanFrom n q rest with
          | error e =>
            rw [hscan] at h
            cases h
          | ok us =>
            rw [hscan] at h
            cases h
            obtain ⟨body, r, rfl, heq⟩ := ih hscan (by omega) (m := m) (by omega)
            refine ⟨t :: body, r, rfl, ?_⟩
            show (scanFrom m q (rest ++ '\n' :: bs)).map (t :: ·) = _
            rw [heq]
            cases scanFrom bs.length (r.after '\n') bs <;> rfl

/-- What a scanner gives, so many lines further down. -/
def lowerBy (n : Nat) : Except Error (List Token) → Except Error (List Token)
  | .ok ts => .ok (ts.map (move (Pos.lowered n)))
  | .error e => .error (e.move (Pos.lowered n))

theorem lowerBy_zero (r : Except Error (List Token)) : lowerBy 0 r = r := by
  cases r with
  | error e => simp [lowerBy, Located.move, Pos.lowered_zero]
  | ok ts =>
    have hmove : move (Pos.lowered 0) = id := funext fun t => by simp [move, Pos.lowered_zero]
    simp [lowerBy, hmove]

theorem lowerBy_succ (k : Nat) (r : Except Error (List Token)) :
    lowerBy (k + 1) r = lower (List.map (move Pos.down)) (lowerBy k r) := by
  cases r with
  | error e => simp [lowerBy, lower, Located.move, Pos.lowered_succ]
  | ok ts => simp [lowerBy, lower, move, Pos.lowered_succ]

theorem scanFrom_lowered (k n : Nat) (p : Pos) (cs : List Char) :
    scanFrom n (p.lowered k) cs = lowerBy k (scanFrom n p cs) := by
  induction k with
  | zero => rw [Pos.lowered_zero, lowerBy_zero]
  | succ k ih => rw [Pos.lowered_succ, scanFrom_down, ih, lowerBy_succ]

/-- The end of a text is told on its last line. -/
theorem line_of_scan {source : String} {body : List Token} {q : Pos}
    (h : scan source = .ok (body ++ [endAt q])) : q.line = 1 + (source.toList.count '\n' : Int) := by
  have hrun : Run .start source.toList (scan source) := run_scanFrom (Nat.le_refl _)
  rw [h] at hrun
  generalize hts : body ++ [endAt q] = ts at hrun
  cases hrun with
  | @tokens items q' hwalk =>
    obtain ⟨-, hend⟩ := List.append_inj' hts rfl
    obtain rfl : q = q' := congrArg Token.pos (List.cons.inj hend).1
    have htext : source.toList = items.flatMap Item.text := by simpa using hwalk.text_eq
    rw [htext, hwalk.reached.line_eq]
    rfl

/-- Behind a text that can be read and a line break a text is read as if it stood alone, only further down. -/
theorem scan_feed {a : String} {body : List Token} {q : Pos} (h : scan a = .ok (body ++ [endAt q])) (b : String) :
    scan (a ++ "\n" ++ b) = (lowerBy (a.toList.count '\n' + 1) (scan b)).map (body ++ ·) := by
  have hlist : (a ++ "\n" ++ b).toList = a.toList ++ '\n' :: b.toList := by simp
  have hlength : (a.toList ++ '\n' :: b.toList).length = a.toList.length + b.toList.length + 1 := by
    rw [List.length_append, List.length_cons, Nat.add_assoc]
  have hplace : q.after '\n' = Pos.start.lowered (a.toList.count '\n' + 1) := by
    simp [Pos.after, Pos.lowered, Pos.start, line_of_scan h]
    omega
  obtain ⟨body', q', hbody, hjoined⟩ := scanFrom_feed b.toList h (Nat.le_refl _) (Nat.lt_succ_self _)
  obtain ⟨rfl, hend⟩ := List.append_inj' hbody rfl
  obtain rfl : q = q' := congrArg Token.pos (List.cons.inj hend).1
  unfold scan
  dsimp only
  rw [hlist, hlength, hjoined, hplace, scanFrom_lowered]

/-- A text that can be read and a line break do not change how the text behind them is read: its tokens, or
its failure, are only as many lines further down as there are line feeds before it. -/
theorem scan_joined {a : String} {ts : List Token} (h : scan a = .ok ts) (b : String) :
    ∃ body q, ts = body ++ [endAt q] ∧
      (∀ us, scan b = .ok us →
        scan (a ++ "\n" ++ b) = .ok (body ++ us.map (move (Pos.lowered (a.toList.count '\n' + 1))))) ∧
      ∀ e, scan b = .error e →
        scan (a ++ "\n" ++ b) = .error (e.move (Pos.lowered (a.toList.count '\n' + 1))) := by
  obtain ⟨body, q, rfl, -⟩ := scanFrom_feed [] h (Nat.le_refl _) (Nat.lt_succ_self _)
  refine ⟨body, q, rfl, fun us hus => ?_, fun e he => ?_⟩
  · rw [scan_feed h, hus]
    rfl
  · rw [scan_feed h, he]
    rfl

/-- A text of two lines that ends in a point and a comment. -/
def pointSource : String := "x 🍨 over\ntwo 🍨 1. 🍦 end"

def pointTokens : List Token :=
  [⟨.ident, "x", ⟨1, 1⟩⟩, ⟨.number, "1", ⟨2, 7⟩⟩, ⟨.op, ".", ⟨2, 8⟩⟩, endAt ⟨2, 10⟩]

theorem scan_joined_point :
    scan pointSource = .ok pointTokens ∧
      scan ".5" = .ok [⟨.op, ".", ⟨1, 1⟩⟩, ⟨.number, "5", ⟨1, 2⟩⟩, endAt ⟨1, 3⟩] ∧
      scan " \"open" = .error ⟨.unterminatedString, ⟨1, 2⟩⟩ ∧
      scan (pointSource ++ "\n" ++ ".5") =
        .ok [⟨.ident, "x", ⟨1, 1⟩⟩, ⟨.number, "1", ⟨2, 7⟩⟩, ⟨.op, ".", ⟨2, 8⟩⟩, ⟨.op, ".", ⟨3, 1⟩⟩,
          ⟨.number, "5", ⟨3, 2⟩⟩, endAt ⟨3, 3⟩] ∧
      scan (pointSource ++ "\n" ++ " \"open") = .error ⟨.unterminatedString, ⟨3, 2⟩⟩ := by
  obtain ⟨body, q, hbody, hok, -⟩ := scan_joined (show scan pointSource = .ok pointTokens from rfl) ".5"
  obtain ⟨-, -, -, -, herror⟩ := scan_joined (show scan pointSource = .ok pointTokens from rfl) " \"open"
  obtain rfl : body = pointTokens.dropLast := by simp [hbody]
  exact ⟨rfl, rfl, rfl, hok _ rfl, herror _ rfl⟩

/-! ### Lines -/

theorem line_le_afterAll (p : Pos) (cs : List Char) : p.line ≤ (p.afterAll cs).line := by
  induction cs generalizing p with
  | nil => exact Int.le_refl _
  | cons c cs ih =>
    have hafter : p.line ≤ (p.after c).line := by
      unfold Pos.after
      split
      · exact Int.le_add_one (Int.le_refl _)
      · exact Int.le_refl _
    exact Int.le_trans hafter (ih (p.after c))

theorem Item.line_le_next (p : Pos) (x : Item) : p.line ≤ (x.next p).line := by
  cases x with
  | line => exact Int.le_refl _
  | blank | block | token => exact line_le_afterAll p _

/-- Reading never goes up, so every token is on a line between the first and the last one. -/
theorem Walk.lines {p q : Pos} {cs rest : List Char} {xs : List Item} (h : Walk p cs xs q rest) :
    p.line ≤ q.line ∧ ∀ t ∈ xs.filterMap Item.token?, p.line ≤ t.pos.line ∧ t.pos.line ≤ q.line := by
  induction h with
  | nil => exact ⟨Int.le_refl _, List.forall_mem_nil _⟩
  | @cons p cs x xs q rest hfits hpos h ih =>
    obtain ⟨hlast, htokens⟩ := ih
    have hnext := x.line_le_next p
    refine ⟨Int.le_trans hnext hlast, fun t ht => ?_⟩
    obtain ⟨y, hy, hyt⟩ := List.mem_filterMap.1 ht
    rcases List.mem_cons.1 hy with rfl | hy
    · rw [hpos t hyt]
      exact ⟨Int.le_refl _, Int.le_trans hnext hlast⟩
    · obtain ⟨hfirst, hle⟩ := htokens t (List.mem_filterMap.2 ⟨y, hy, hyt⟩)
      exact ⟨Int.le_trans hnext hfirst, hle⟩

theorem lines_of_scan {source : String} {body : List Token} {q : Pos}
    (h : scan source = .ok (body ++ [endAt q])) : ∀ t ∈ body, 1 ≤ t.pos.line ∧ t.pos.line ≤ q.line := by
  have hrun : Run .start source.toList (scan source) := run_scanFrom (Nat.le_refl _)
  rw [h] at hrun
  generalize hts : body ++ [endAt q] = ts at hrun
  cases hrun with
  | @tokens items q' hwalk =>
    obtain ⟨rfl, hend⟩ := List.append_inj' hts rfl
    obtain rfl : q = q' := congrArg Token.pos (List.cons.inj hend).1
    exact hwalk.lines.2

theorem movesTo_lowered (n : Nat) (ts : List Token) :
    MovesTo (Pos.lowered n) ts (ts.map (move (Pos.lowered n))) :=
  ⟨rfl, (returnsInline_move (by simp [Pos.lowered]) ts).symm⟩

end Token

end Snack
