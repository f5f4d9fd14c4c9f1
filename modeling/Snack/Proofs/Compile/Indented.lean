import Snack.Proofs.Compile.Blocks
import Snack.Proofs.Script.Indented

/-! The layout of a compiled script. Whatever the settings and whatever stands in the string literals of the
source text, the brackets of the script are balanced, and every line of it is indented by the blocks that are
open around it. -/

namespace Snack.Compile

open Snack.Core

/-- What is written out of a program that was analysed. -/
def written (settings : Settings) (p : Program) : Program :=
  if settings.optimize then Simplify.program p else p

theorem written_of_analyze {source : String} {tree : Tree.Program} {p : Program}
    (hread : read source = .ok tree) (hp : (Typing.analyze tree).1 = .ok p) (settings : Settings) :
    (written settings p).Writable ∧ (written settings p).Spelled := by
  have hparse := parse_of_read source
  rw [hread] at hparse
  have hwritable := analyze_of_formed hparse.1
  rw [hp] at hwritable
  have hspelled : p.Spelled := Typing.spelled_of_analyze hparse.1 (Prod.ext hp rfl)
  unfold written
  split
  · exact ⟨hwritable.2.1, Simplify.spelled_program hspelled⟩
  · exact ⟨hwritable.1, hspelled⟩

theorem script_of_run {settings : Settings} {p : Program} {st : Script.State}
    (h : Script.run settings.mangling (written settings p) = (.ok (), st)) :
    script settings p = .ok (String.intercalate "\n" st.lines.toList) := by
  have hgenerate : Script.generate settings.mangling (written settings p) = .ok st.text := by
    rw [Script.generate, h]
  show (Script.generate settings.mangling (written settings p)).mapError Failure.script = _
  rw [hgenerate]
  rfl

/-- Every source text that is accepted has a script. It is the lines that were written, joined by line feeds:
no line holds one, brackets are balanced, and each line is indented by two blanks for every block around it. -/
theorem compiles_to_laid_out_lines {source : String} {tree : Tree.Program} {p : Program}
    (hread : read source = .ok tree) (hp : (Typing.analyze tree).1 = .ok p) (settings : Settings) :
    ∃ st, Script.run (settings.adjusted source).mangling (written (settings.adjusted source) p) = (.ok (), st) ∧
      compile settings source = .ok (String.intercalate "\n" st.lines.toList) ∧
      Script.LaidOut st.lines.toList := by
  obtain ⟨hwritable, hspelled⟩ := written_of_analyze hread hp (settings.adjusted source)
  have hok : (Script.run (settings.adjusted source).mangling (written (settings.adjusted source) p)).1 = .ok () :=
    (Script.run_of_writable (U := fun _ => True) hwritable fun _ _ _ => trivial).1
  have hrun : Script.run (settings.adjusted source).mangling (written (settings.adjusted source) p) = (.ok (), _) :=
    Prod.ext hok rfl
  exact ⟨_, hrun, (compile_of_analyze hread hp settings).trans (script_of_run hrun),
    Script.laidOut_run hspelled hrun⟩

/-! ### Brackets in a literal -/

/-- A string with braces and a quote in it is printed in one of two branches. -/
def quotedSource : String := "🧁 🥗: 🍽 \"\x7d\\\"\x7b\" ; 🎂: 🍽 [🥗] ;"

def quotedTokens : List Token :=
  [⟨.keyword, "🧁", ⟨1, 1⟩⟩, ⟨.keyword, "🥗", ⟨1, 3⟩⟩, ⟨.op, ":", ⟨1, 4⟩⟩, ⟨.keyword, "🍽", ⟨1, 6⟩⟩,
    ⟨.string, "\x7d\"\x7b", ⟨1, 8⟩⟩, ⟨.op, ";", ⟨1, 15⟩⟩, ⟨.keyword, "🎂", ⟨1, 17⟩⟩, ⟨.op, ":", ⟨1, 18⟩⟩,
    ⟨.keyword, "🍽", ⟨1, 20⟩⟩, ⟨.op, "[", ⟨1, 22⟩⟩, ⟨.keyword, "🥗", ⟨1, 23⟩⟩, ⟨.op, "]", ⟨1, 24⟩⟩,
    ⟨.op, ";", ⟨1, 26⟩⟩, .endAt ⟨1, 27⟩]

def quotedTree : Tree.Program :=
  [.ifChain ⟨1, 1⟩ (.bool ⟨1, 3⟩ true) [.print ⟨1, 6⟩ [.str ⟨1, 8⟩ "\x7d\"\x7b"]] []
    (some [.print ⟨1, 20⟩ [.array ⟨1, 22⟩ [.bool ⟨1, 23⟩ true]]])]

def quotedProgram : Program :=
  ⟨[.ifElse (.bool true) [.print [.str "\x7d\"\x7b"] ⟨1, 6⟩]
    (.block [.print [.array [.bool true] (.array .bool)] ⟨1, 20⟩]) ⟨1, 1⟩]⟩

theorem read_quoted : read quotedSource = .ok quotedTree := by
  have hscan : Token.scan quotedSource = .ok quotedTokens := rfl
  have hrun : Parser.run quotedTokens = .ok quotedTree := by cbv
  rw [read, hscan]
  dsimp only
  rw [hrun]
  rfl

theorem analyze_quoted : (Typing.analyze quotedTree).1 = .ok quotedProgram := rfl

theorem compiles_to_laid_out_lines_quoted :
    read quotedSource = .ok quotedTree ∧ (Typing.analyze quotedTree).1 = .ok quotedProgram ∧
      ∃ st, Script.run ((⟨false, .byEntity⟩ : Settings).adjusted quotedSource).mangling
          (written ((⟨false, .byEntity⟩ : Settings).adjusted quotedSource) quotedProgram) = (.ok (), st) ∧
        compile ⟨false, .byEntity⟩ quotedSource = .ok (String.intercalate "\n" st.lines.toList) ∧
        Script.LaidOut st.lines.toList :=
  ⟨read_quoted, analyze_quoted, compiles_to_laid_out_lines read_quoted analyze_quoted _⟩

end Snack.Compile
