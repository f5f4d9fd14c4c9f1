import Snack.Proofs.Token.Items
import Snack.Script.Literal

/-! String literals that are written can be read. The literals of the target language are also literals of
the source language, and stand for the same text there. -/

namespace Snack.Script

open Token (Decodes)

/-- A character between quotes. -/
def escaped : Char → List Char
  | '\\' => ['\\', '\\']
  | '"' => ['\\', '"']
  | '\n' => ['\\', 'n']
  | '\t' => ['\\', 't']
  | '\r' => ['\\', 'r']
  | c => [c]

/-- No replacement touches what those before it have put in, so together they go character by character. -/
theorem escape_eq (cs : List Char) : escape cs = cs.flatMap escaped := by
  simp only [escape, replace, List.flatMap_assoc]
  congr 1
  funext c
  fun_cases escaped c with
  | case6 _ hslash hquote hfeed htab hreturn =>
    simp only [if_neg hslash, if_neg hquote, if_neg hfeed, if_neg htab, if_neg hreturn, List.flatMap_singleton]
  | _ => rfl

/-- The characters between the quotes stand for those of the text, one by one. -/
theorem decodes_escaped (cs : List Char) : Decodes (cs.flatMap escaped) cs := by
  induction cs with
  | nil => exact .nil
  | cons c cs ih =>
    rw [List.flatMap_cons]
    unfold escaped
    split
    case h_6 hslash hquote hfeed htab hreturn =>
      refine .plain ?_ ih
      simp only [List.mem_cons, List.not_mem_nil, or_false, not_or]
      exact ⟨hquote, hslash, hfeed⟩
    all_goals exact .escape rfl ih

theorem toList_stringLiteral (s : String) :
    (stringLiteral s).toList = '"' :: (s.toList.flatMap escaped ++ ['"']) := by
  simp [stringLiteral, escape_eq]

theorem inline_stringLiteral (s : String) : '\n' ∉ (stringLiteral s).toList := by
  rw [toList_stringLiteral]
  simpa using (decodes_escaped s.toList).inline

/-- A literal is one piece of a source text. -/
theorem piece_stringLiteral (s : String) :
    Token.piece .start '"' (s.toList.flatMap escaped ++ ['"']) =
      .ok (.token ⟨.string, s, .start⟩ ⟨1, 1 + (stringLiteral s).length⟩ []) := by
  have hplace : (Pos.start.after '"').afterAll (s.toList.flatMap escaped ++ ['"']) =
      ⟨1, 1 + (stringLiteral s).length⟩ := by
    rw [← Pos.afterAll_cons, ← toList_stringLiteral, Token.afterAll_inline (inline_stringLiteral s),
      String.length_toList]
    rfl
  show (Token.stringTail .start (Pos.start.after '"') (s.toList.flatMap escaped ++ ['"'])).map _ = _
  rw [(decodes_escaped s.toList).stringTail_eq, hplace]
  show Except.ok (Token.Piece.token ⟨.string, String.ofList s.toList, .start⟩ _ []) = _
  rw [String.ofList_toList]

/-- A literal of a text is on one line, and read back it is that text and nothing else. -/
theorem stringLiteral_reads_back (s : String) :
    '\n' ∉ (stringLiteral s).toList ∧
      Token.scan (stringLiteral s) =
        .ok [⟨.string, s, .start⟩, .endAt ⟨1, 1 + (stringLiteral s).length⟩] := by
  refine ⟨inline_stringLiteral s, ?_⟩
  unfold Token.scan
  dsimp only
  rw [toList_stringLiteral, List.length_cons, Token.scanFrom, piece_stringLiteral]
  dsimp only
  rw [List.length_append, List.length_singleton, Token.scanFrom]
  rfl

end Snack.Script
