import Mathlib.Logic.Basic
import Snack.Proofs.Agree
import Snack.Proofs.Token.Items
import Snack.Proofs.Token.Lexeme

/-! Where tokens stand. Of all that their places could tell only one thing will be looked at: whether the
token behind a return stands on the same line. A text that starts a line further down has the same tokens,
each a line further down. -/

namespace Snack

/-- The place one line further down. -/
def Pos.down (p : Pos) : Pos := ⟨p.line + 1, p.col⟩

theorem Pos.after_down (p : Pos) (c : Char) : p.down.after c = (p.after c).down := by
  unfold after
  split <;> rfl

namespace Token

/-- For every return, whether the token behind it stands on the same line. -/
def returnsInline : List Token → List Bool
  | t :: u :: ts =>
    if t.spells Keyword.ret.text then decide (u.pos.line = t.pos.line) :: returnsInline (u :: ts)
    else returnsInline (u :: ts)
  | _ => []

/-- The token at another place. -/
def move (f : Pos → Pos) (t : Token) : Token := ⟨t.kind, t.text, f t.pos⟩

/-- The same tokens where `f` takes them, which keeps for every return what stands on its line. -/
structure MovesTo (f : Pos → Pos) (ts us : List Token) : Prop where
  tokens : us = ts.map (move f)
  returns : returnsInline ts = returnsInline us

theorem spells_move {f : Pos → Pos} (t : Token) (s : String) : (t.move f).spells s = t.spells s := rfl

/-! ### Tokens that only look alike -/

/-- The same lexemes in a layout that makes no difference: behind every return the next token stands on the
same line in both or in none. -/
structure Alike (ts us : List Token) : Prop where
  lexemes : ts.map lexeme = us.map lexeme
  returns : returnsInline ts = returnsInline us

/-- The tokens on their lines, each with its number for a column. So their places are all different. -/
def numbered : Nat → List Token → List Token
  | _, [] => []
  | n, t :: ts => ⟨t.kind, t.text, ⟨t.pos.line, n⟩⟩ :: numbered (n + 1) ts

/-- Where the token of the number stands that a place has for a column. -/
def placeIn (ts : List Token) (p : Pos) : Pos := (ts.getD p.col.toNat default).pos

theorem returnsInline_numbered (n : Nat) (ts : List Token) :
    returnsInline (numbered n ts) = returnsInline ts := by
  induction ts generalizing n with
  | nil => rfl
  | cons t ts ih =>
    cases ts with
    | nil => rfl
    | cons u ts =>
      have htail := ih (n + 1)
      rw [numbered] at htail
      rw [numbered, numbered, returnsInline, returnsInline, htail]
      rfl

theorem map_move_numbered {ts us : List Token} (h : ts.map lexeme = us.map lexeme) (before : List Token) :
    (numbered before.length ts).map (move (placeIn (before ++ us))) = us := by
  induction ts generalizing us before with
  | nil => exact (List.map_eq_nil_iff.1 h.symm).symm
  | cons t ts ih =>
    obtain ⟨u, us, rfl, hu, hus⟩ := List.map_eq_cons_iff.1 h.symm
    have hplace : placeIn (before ++ u :: us) ⟨t.pos.line, before.length⟩ = u.pos := by
      simp [placeIn]
    have htail := ih hus.symm (before ++ [u])
    rw [List.append_assoc, List.singleton_append, List.length_append, List.length_singleton] at htail
    have hhead : move (placeIn (before ++ u :: us)) ⟨t.kind, t.text, ⟨t.pos.line, before.length⟩⟩ = u := by
      rw [move, hplace]
      exact congrArg₂ (fun k s => Token.mk k s u.pos) (kind_of_lexeme hu.symm) (text_of_lexeme hu.symm)
    rw [numbered, List.map_cons, htail, hhead]

/-- Tokens that look alike are the numbered ones, each taken to its own place. -/
theorem Alike.movesTo {ts us : List Token} (h : Alike ts us) : MovesTo (placeIn us) (numbered 0 ts) us :=
  ⟨(map_move_numbered h.lexemes []).symm, (returnsInline_numbered 0 ts).trans h.returns⟩

/-- As many pieces as there are characters are enough. -/
theorem scanFrom_eq {n m : Nat} {p : Pos} {cs : List Char} (hn : cs.length ≤ n) (hm : cs.length ≤ m) :
    scanFrom n p cs = scanFrom m p cs := by
  induction n generalizing m p cs with
  | zero =>
    obtain rfl := List.eq_nil_of_length_eq_zero (Nat.le_zero.1 hn)
    cases m <;> rfl
  | succ n ih =>
    cases cs with
    | nil => cases m <;> rfl
    | cons c cs =>
      obtain ⟨m, rfl⟩ := Nat.exists_eq_add_one.2 (Nat.lt_of_lt_of_le (Nat.succ_pos _) hm)
      rw [scanFrom, scanFrom]
      cases hpiece : piece p c cs with
      | error e => rfl
      | ok x =>
        have hrest := (rest_of_piece hpiece).length_le
        have hn : x.rest.length ≤ n := Nat.le_trans hrest (Nat.le_of_succ_le_succ hn)
        have hm : x.rest.length ≤ m := Nat.le_trans hrest (Nat.le_of_succ_le_succ hm)
        cases x with
        | gap q rest => exact ih hn hm
        | token t q rest => exact congrArg (Except.map (t :: ·)) (ih hn hm)

/-! ### Texts further down -/

/-- What a scanner gives, one line further down. -/
def lower {α β : Type} (g : α → β) : Except Error α → Except Error β
  | .ok a => .ok (g a)
  | .error e => .error (e.move Pos.down)

theorem stringTail_down (start p : Pos) (cs : List Char) :
    stringTail start.down p.down cs =
      lower (fun x => (x.1, x.2.1.down, x.2.2)) (stringTail start p cs) := by
  fun_induction stringTail start p cs with
  | case1 | case3 | case4 => rfl
  | case2 p cs => simp only [stringTail, Pos.after_down, lower]
  | case5 p c cs d hd ih =>
    rw [stringTail, hd]
    show Except.map _ (stringTail start.down (Pos.mk p.line (p.col + 2)).down cs) = _
    rw [ih]
    cases stringTail start ⟨p.line, p.col + 2⟩ cs <;> rfl
  | case6 p c cs hc =>
    simp only [stringTail, hc]
    rfl
  | case7 p c cs hquote hfeed hlast hescape ih =>
    rw [stringTail, Pos.after_down, ih]
    · cases stringTail start (p.after c) cs <;> rfl
    · exact hquote
    · exact hfeed
    · exact hlast
    · exact hescape

theorem commentTail_down (p : Pos) (cs : List Char) :
    commentTail p.down cs = (commentTail p cs).map fun x => (x.1.down, x.2) := by
  induction cs generalizing p with
  | nil => rfl
  | cons c cs ih =>
    rw [commentTail, commentTail, Pos.after_down, ih]
    split <;> rfl

def Piece.down : Piece → Piece
  | .gap p rest => .gap p.down rest
  | .token t p rest => .token (t.move Pos.down) p.down rest

theorem Piece.emoji_down (kind : Kind) (p : Pos) (c : Char) (rest : List Char) :
    Piece.emoji kind p.down c rest = (Piece.emoji kind p c rest).down := by
  unfold emoji
  split
  · split <;> rfl
  · rfl

theorem piece_down (p : Pos) (c : Char) (cs : List Char) :
    piece p.down c cs = lower Piece.down (piece p c cs) := by
  unfold piece
  rw [Pos.after_down, commentTail_down, stringTail_down, Piece.emoji_down, Piece.emoji_down]
  split
  · rfl
  split
  · rfl
  split
  · cases commentTail (p.after c) cs <;> rfl
  split
  · cases number? (c :: cs) <;> rfl
  split
  · cases stringTail p (p.after c) cs <;> rfl
  split
  · rfl
  split
  · rfl
  split
  · rfl
  cases operator? (c :: cs) <;> rfl

theorem scanFrom_down (n : Nat) (p : Pos) (cs : List Char) :
    scanFrom n p.down cs = lower (List.map (move Pos.down)) (scanFrom n p cs) := by
  induction n generalizing p cs with
  | zero => cases cs <;> rfl
  | succ n ih =>
    cases cs with
    | nil => rfl
    | cons c cs =>
      rw [scanFrom, scanFrom, piece_down]
      rcases piece p c cs with e | ⟨q, rest⟩ | ⟨t, q, rest⟩
      · rfl
      · exact ih q rest
      · show Except.map _ (scanFrom n q.down rest) = lower _ (Except.map _ (scanFrom n q rest))
        rw [ih]
        cases scanFrom n q rest <;> rfl

/-- Behind a line comment a text goes on one line further down. -/
theorem scan_comment {comment : List Char} (h : ∀ c ∈ comment, (c != '\n') = true) (source : String) :
    scan (.ofList (lineComment :: comment ++ ['\n']) ++ source) =
      lower (List.map (move Pos.down)) (scan source) := by
  have hlist : (String.ofList (lineComment :: comment ++ ['\n']) ++ source).toList =
      lineComment :: (comment ++ '\n' :: source.toList) := by
    simp
  have hcomment : piece .start lineComment (comment ++ '\n' :: source.toList) =
      .ok (.gap .start ('\n' :: source.toList)) := by
    have hdrop : (comment ++ '\n' :: source.toList).dropWhile (· != '\n') = '\n' :: source.toList :=
      List.dropWhile_append_of_pos h
    exact congrArg (fun rest => Except.ok (Piece.gap .start rest)) hdrop
  have hfeed : piece .start '\n' source.toList = .ok (.gap Pos.start.down source.toList) := rfl
  have hlength : (comment ++ '\n' :: source.toList).length = comment.length + source.toList.length + 1 := by
    rw [List.length_append, List.length_cons, Nat.add_assoc]
  unfold scan
  dsimp only
  rw [hlist, List.length_cons, hlength, scanFrom, hcomment]
  dsimp only
  rw [scanFrom, hfeed]
  dsimp only
  rw [scanFrom_eq (Nat.le_add_left _ _) (Nat.le_refl _), scanFrom_down]

/-- What is on one line stays on one line. -/
theorem returnsInline_move {f : Pos → Pos} (hf : ∀ p q : Pos, (f p).line = (f q).line ↔ p.line = q.line)
    (ts : List Token) : returnsInline (ts.map (move f)) = returnsInline ts := by
  induction ts with
  | nil => rfl
  | cons t ts ih =>
    cases ts with
    | nil => rfl
    | cons u ts =>
      rw [List.map_cons] at ih
      simp only [List.map_cons, returnsInline, ih, spells_move]
      simp only [move, hf]

theorem movesTo_down (ts : List Token) : MovesTo Pos.down ts (ts.map (move Pos.down)) :=
  ⟨rfl, (returnsInline_move (by simp [Pos.down]) ts).symm⟩

end Token

end Snack
