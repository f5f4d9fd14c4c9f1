import Snack.Command.Basic
import Snack.Proofs.Compile.Layout

/-! Three ways to set a compilation: by its settings, by a pragma in front of the source text, and on the
command line. They come to the same. A pragma takes a line, so with it failures show one line further
down; all else about them is the same. -/

namespace Snack

/-! ### A pragma in front -/

/-- The line that holds a pragma and nothing else. -/
def Pragma.line (π : Pragma) : String := "🍦 " ++ π.text ++ "\n"

/-- What stands in the line behind the mark of a comment. -/
def Pragma.comment (π : Pragma) : List Char := ' ' :: π.text.toList

namespace Pragma

variable (π : Pragma) (source : String)

theorem line_eq : π.line = .ofList (Token.lineComment :: π.comment ++ ['\n']) := by
  cases π <;> rfl

theorem comment_inline : ∀ c ∈ π.comment, (c != '\n') = true := by
  refine List.all_eq_true.1 ?_
  cases π <;> rfl

theorem ofSource_line : ofSource (π.line ++ source) = π :: ofSource source := by
  have hlist : (π.line ++ source).toList = (Token.lineComment :: π.comment) ++ '\n' :: source.toList := by
    rw [line_eq]
    simp
  have hfirst : ∀ c ∈ Token.lineComment :: π.comment, (c == '\n') = false :=
    List.forall_mem_cons.2 ⟨by decide, fun c hc => by simpa using π.comment_inline c hc⟩
  have hstrip : Text.strip (Token.lineComment :: π.comment) = Token.lineComment :: π.comment := by
    cases π <;> rfl
  have htext : ofText? (Text.strip π.comment) = some π := by
    cases π <;> rfl
  unfold ofSource
  rw [hlist, List.splitOn_append_cons_of_forall_mem_beq_eq_false hfirst _ (by decide), ofLines, hstrip]
  dsimp only
  rw [if_pos rfl, htext]
  rfl

/-- In front of a source text a pragma does what it does to the settings. -/
theorem adjusted_line (s : Settings) : s.adjusted (π.line ++ source) = (π.apply s).adjusted source := by
  rw [Settings.adjusted, ofSource_line]
  rfl

end Pragma

/-- A failure at another place. -/
def Failure.move (f : Pos → Pos) : Failure → Failure
  | .token e => .token (e.move f)
  | .parse e => .parse (e.move f)
  | .typing e => .typing (e.move f)
  | .dump e => .dump e
  | .script e => .script e

theorem Located.MovesTo.eq {ε : Type} {told : ε → Prop} {f : Pos → Pos} {e d : Located ε}
    (h : MovesTo told f e d) (htold : told e.cause) : d = e.move f := by
  obtain ⟨c, p⟩ := d
  obtain ⟨rfl, hpos⟩ := h
  exact congrArg (Located.mk e.cause) (hpos htold)

namespace Compile

variable (π : Pragma) (settings : Settings) (source : String)

/-- A source text below a pragma is read into the same tree one line further down, or fails in the same way
there. -/
theorem read_line :
    read (π.line ++ source) =
      ((read source).map (Tree.moveBlock Pos.down)).mapError (Failure.move Pos.down) := by
  have hparse := parse_of_read source
  have hscan := Token.scan_comment π.comment_inline source
  rw [← π.line_eq] at hscan
  unfold read at hparse ⊢
  rw [hscan]
  cases hs : Token.scan source with
  | error e => rfl
  | ok ts =>
    rw [hs] at hparse
    dsimp only [Token.lower] at hparse ⊢
    rcases (Parser.moved_run (Token.movesTo_down ts)).cases with ⟨a, b, ha, hb, rfl⟩ | ⟨e, d, he, hd, hed⟩
    · rw [ha, hb]
      rfl
    · rw [he] at hparse
      rw [he, hd, hed.eq hparse.1]
      rfl

/-- A program that can be written out has a script. -/
theorem exists_script {p : Core.Program} (hp : p.Writable) (hs : (Simplify.program p).Writable) :
    ∃ text, script settings p = .ok text := by
  have hgenerate {q : Core.Program} (hq : q.Writable) :
      ∃ text, (Script.generate settings.mangling q).mapError Failure.script = .ok text := by
    obtain ⟨text, htext⟩ := Script.generate_of_writable settings.mangling hq
    exact ⟨text, by rw [htext]; rfl⟩
  unfold script
  split
  · exact hgenerate hs
  · exact hgenerate hp

/-! ### The command line -/

/-- What the command line makes of a compilation. -/
theorem pipeline_eq :
    (Command.pipeline none settings source []).1 =
      match compile settings source with
      | .ok text => ⟨0, text, ""⟩
      | .error e => ⟨1, "", "error: " ++ e.message ++ "\n"⟩ := by
  unfold Command.pipeline compile
  cases run none settings source [] <;> rfl

/-- A pragma in front of a source text, the setting that it stands for and the command line with that setting
give the same script, or the same failure. Only the line is one further down behind the pragma, and the
command line tells the failure as the setting gives it. -/
theorem same_by_pragma_setting_command :
    (∃ text, compile settings (π.line ++ source) = .ok text ∧
      compile (π.apply settings) source = .ok text ∧
      (Command.pipeline none (π.apply settings) source []).1 = ⟨0, text, ""⟩) ∨
    ∃ e : Failure, e.IsReport ∧
      compile settings (π.line ++ source) = .error (e.move Pos.down) ∧
      compile (π.apply settings) source = .error e ∧
      (Command.pipeline none (π.apply settings) source []).1 = ⟨1, "", "error: " ++ e.message ++ "\n"⟩ := by
  rw [pipeline_eq, compile_eq, compile_eq, read_line, π.adjusted_line]
  have hparse := parse_of_read source
  cases hread : read source with
  | error e =>
    rw [hread] at hparse
    exact .inr ⟨e, hparse.1, rfl, rfl, rfl⟩
  | ok tree =>
    rw [hread] at hparse
    have hanalyze := analyze_of_formed hparse.1
    dsimp only [Except.map, Except.mapError, bind, Except.bind]
    rcases (Typing.moved_analyze Pos.down tree).cases with ⟨p, q, hp, hq, hpq⟩ | ⟨e, d, he, hd, hed⟩
    · rw [hp] at hanalyze
      obtain ⟨text, htext⟩ := exists_script ((π.apply settings).adjusted source) hanalyze.1 hanalyze.2.1
      have htext' := (script_congr hpq ((π.apply settings).adjusted source)).symm.trans htext
      rw [hp, hq]
      dsimp only
      rw [htext, htext']
      exact .inl ⟨text, rfl, rfl, rfl⟩
    · rw [he] at hanalyze
      rw [he, hd, hed.eq hanalyze.1.reported]
      exact .inr ⟨.typing e, hanalyze.1, rfl, rfl, rfl⟩

end Compile

end Snack
