import Snack.Text.Blank

/-! What follows a piece at the head of a text. -/

namespace Snack.Text

/-- What follows `piece` in a text that begins with it. -/
def after? (piece text : List Char) : Option (List Char) :=
  match piece, text with
  | [], cs => some cs
  | p :: ps, c :: cs => if p = c then after? ps cs else none
  | _ :: _, [] => none

theorem after?_eq_some {piece text rest : List Char} :
    after? piece text = some rest ↔ text = piece ++ rest := by
  induction piece generalizing text with
  | nil => simp [after?]
  | cons p ps ih =>
    cases text with
    | nil => simp [after?]
    | cons c cs =>
      by_cases h : p = c
      · simp [after?, h, ih]
      · simp [after?, h, Ne.symm h]

theorem after?_cons_of_ne {p c : Char} (h : c ≠ p) (ps cs : List Char) : after? (p :: ps) (c :: cs) = none :=
  if_neg h.symm

end Snack.Text
