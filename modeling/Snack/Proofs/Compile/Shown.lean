import Snack.Proofs.Compile.Outcome
import Snack.Proofs.Script.Shown
import Snack.Proofs.Simplify.Writable
import Snack.Proofs.Typing.Spelled

/-! Dumps of compiled programs. Two source texts whose programs are shown alike have the same script, if names
are told apart by their spelling. In a dump a zero has a sign, and it needs one. -/

namespace Snack.Compile

open Snack.Core

/-- The programs of an accepted source text: what the analysis gives, simplified or not. -/
inductive ProgramOf (source : String) : Program → Prop where
  | plain {tree p} (hread : read source = .ok tree) (hp : (Typing.analyze tree).1 = .ok p) : ProgramOf source p
  | simplified {tree p} (hread : read source = .ok tree) (hp : (Typing.analyze tree).1 = .ok p) :
      ProgramOf source (Simplify.program p)

theorem ProgramOf.clear {source : String} {q : Program} (h : ProgramOf source q) :
    q.Writable ∧ ∀ s ∈ q.statements, Script.ClearNode (.stmt s) := by
  have hboth : ∀ {tree p}, read source = .ok tree → (Typing.analyze tree).1 = .ok p →
      (p.Writable ∧ (Simplify.program p).Writable) ∧ p.Spelled := by
    intro tree p hread hp
    have hparse := parse_of_read source
    rw [hread] at hparse
    have hanalyze : Typing.analyze tree = (.ok p, (Typing.analyze tree).2) := Prod.ext hp rfl
    exact ⟨Simplify.writable_of_analyze hanalyze, Typing.spelled_of_analyze hparse.1 hanalyze⟩
  cases h with
  | plain hread hp =>
    obtain ⟨⟨hw, -⟩, hs⟩ := hboth hread hp
    exact ⟨hw, Script.clear_of_spelled hw hs⟩
  | simplified hread hp =>
    obtain ⟨⟨-, hw⟩, hs⟩ := hboth hread hp
    exact ⟨hw, Script.clear_of_spelled hw (Simplify.spelled_program hs)⟩

/-- Programs of accepted source texts with the same dump have the same script where names are told apart by
their spelling. The dump tells a negative zero from a positive one. -/
theorem same_script_of_same_dump {source source' : String} {q q' : Program} (h : ProgramOf source q)
    (h' : ProgramOf source' q') (hdump : q.dump = q'.dump) :
    ∃ text, Script.generate .byName q = .ok text ∧ Script.generate .byName q' = .ok text := by
  obtain ⟨hw, hc⟩ := h.clear
  obtain ⟨-, hc'⟩ := h'.clear
  obtain ⟨j, hj⟩ := hw.dumps
  obtain ⟨text, htext⟩ := Script.generate_of_writable .byName hw
  have hsame := Script.generate_of_shown hc hc' hj (hdump ▸ hj)
  exact ⟨text, htext, hsame ▸ htext⟩

/-! ### A branch that is never taken -/

/-- A branch that declares a variable, which goes when the program is simplified. -/
def deadSource : String := "🧁 🍲: 🍳 y = 🥗 ;\n🍳 x = 🥗\n🍽 x"

def deadTokens : List Token :=
  [⟨.keyword, "🧁", ⟨1, 1⟩⟩, ⟨.keyword, "🍲", ⟨1, 3⟩⟩, ⟨.op, ":", ⟨1, 4⟩⟩, ⟨.keyword, "🍳", ⟨1, 6⟩⟩,
    ⟨.ident, "y", ⟨1, 8⟩⟩, ⟨.op, "=", ⟨1, 10⟩⟩, ⟨.keyword, "🥗", ⟨1, 12⟩⟩, ⟨.op, ";", ⟨1, 14⟩⟩,
    ⟨.keyword, "🍳", ⟨2, 1⟩⟩, ⟨.ident, "x", ⟨2, 3⟩⟩, ⟨.op, "=", ⟨2, 5⟩⟩, ⟨.keyword, "🥗", ⟨2, 7⟩⟩,
    ⟨.keyword, "🍽", ⟨3, 1⟩⟩, ⟨.ident, "x", ⟨3, 3⟩⟩, .endAt ⟨3, 4⟩]

def deadTree : Tree.Program :=
  [.ifChain ⟨1, 1⟩ (.bool ⟨1, 3⟩ false) [.varDecl ⟨1, 6⟩ none "y" (some (.bool ⟨1, 12⟩ true))] [] none,
    .varDecl ⟨2, 1⟩ none "x" (some (.bool ⟨2, 7⟩ true)), .print ⟨3, 1⟩ [.var ⟨3, 3⟩ "x"]]

def deadProgram : Program :=
  let y : Entity := ⟨14, .var true, "y", .bool⟩
  let x : Entity := ⟨15, .var true, "x", .bool⟩
  ⟨[.ifElse (.bool false) [.declare y (some (.bool true)) ⟨1, 6⟩] .none ⟨1, 1⟩,
    .declare x (some (.bool true)) ⟨2, 1⟩, .print [.ref x] ⟨3, 1⟩]⟩

theorem read_dead : read deadSource = .ok deadTree := by
  have hscan : Token.scan deadSource = .ok deadTokens := rfl
  have hrun : Parser.run deadTokens = .ok deadTree := by cbv
  rw [read, hscan]
  dsimp only
  rw [hrun]
  rfl

theorem analyze_dead : (Typing.analyze deadTree).1 = .ok deadProgram := rfl

/-- The same without the branch, where the variable is another entity. -/
def prunedSource : String := "\n🍳 x = 🥗\n🍽 x"

def prunedTokens : List Token :=
  [⟨.keyword, "🍳", ⟨2, 1⟩⟩, ⟨.ident, "x", ⟨2, 3⟩⟩, ⟨.op, "=", ⟨2, 5⟩⟩, ⟨.keyword, "🥗", ⟨2, 7⟩⟩,
    ⟨.keyword, "🍽", ⟨3, 1⟩⟩, ⟨.ident, "x", ⟨3, 3⟩⟩, .endAt ⟨3, 4⟩]

def prunedTree : Tree.Program :=
  [.varDecl ⟨2, 1⟩ none "x" (some (.bool ⟨2, 7⟩ true)), .print ⟨3, 1⟩ [.var ⟨3, 3⟩ "x"]]

def prunedProgram : Program :=
  let x : Entity := ⟨14, .var true, "x", .bool⟩
  ⟨[.declare x (some (.bool true)) ⟨2, 1⟩, .print [.ref x] ⟨3, 1⟩]⟩

theorem read_pruned : read prunedSource = .ok prunedTree := by
  have hscan : Token.scan prunedSource = .ok prunedTokens := rfl
  have hrun : Parser.run prunedTokens = .ok prunedTree := by cbv
  rw [read, hscan]
  dsimp only
  rw [hrun]
  rfl

theorem analyze_pruned : (Typing.analyze prunedTree).1 = .ok prunedProgram := rfl

theorem same_script_of_same_dump_pruned :
    ProgramOf deadSource (Simplify.program deadProgram) ∧ ProgramOf prunedSource prunedProgram ∧
      (Simplify.program deadProgram).dump = prunedProgram.dump ∧
      ∃ text, Script.generate .byName (Simplify.program deadProgram) = .ok text ∧
        Script.generate .byName prunedProgram = .ok text :=
  have hdead : ProgramOf deadSource (Simplify.program deadProgram) := .simplified read_dead analyze_dead
  have hpruned : ProgramOf prunedSource prunedProgram := .plain read_pruned analyze_pruned
  have hdump : (Simplify.program deadProgram).dump = prunedProgram.dump := rfl
  ⟨hdead, hpruned, hdump, same_script_of_same_dump hdead hpruned hdump⟩

/-! ### Zeros -/

mutual

/-- Whether two values are the same where floats are compared as numbers, so that a zero has no sign. -/
def sameValue : Json → Json → Bool
  | .null, .null => true
  | .bool a, .bool b => a == b
  | .int m, .int n => m == n
  | .float x, .float y => Number.compare? (.float x) (.float y) == some .eq
  | .str s, .str t => s == t
  | .arr as, .arr bs => sameItems as bs
  | .obj fs, .obj gs => sameFields fs gs
  | _, _ => false

def sameItems : List Json → List Json → Bool
  | [], [] => true
  | a :: as, b :: bs => sameValue a b && sameItems as bs
  | _, _ => false

def sameFields : List (String × Json) → List (String × Json) → Bool
  | [], [] => true
  | (k, a) :: as, (l, b) :: bs => k == l && sameValue a b && sameFields as bs
  | _, _ => false

end

def negatedTokens : List Token :=
  [⟨.keyword, "🍽", ⟨1, 1⟩⟩, ⟨.op, "-", ⟨1, 3⟩⟩, ⟨.number, "0.0", ⟨1, 4⟩⟩, .endAt ⟨1, 7⟩]

def negatedTree : Tree.Program := [.print ⟨1, 1⟩ [.unary ⟨1, 3⟩ .neg (.num ⟨1, 4⟩ "0.0")]]

def negatedZero : Program := ⟨[.print [.unary .neg (.float Number.zero) .float] ⟨1, 1⟩]⟩

def zeroTokens : List Token := [⟨.keyword, "🍽", ⟨1, 1⟩⟩, ⟨.number, "0.0", ⟨1, 3⟩⟩, .endAt ⟨1, 6⟩]

def zeroTree : Tree.Program := [.print ⟨1, 1⟩ [.num ⟨1, 3⟩ "0.0"]]

def zeroProgram : Program := ⟨[.print [.float Number.zero] ⟨1, 1⟩]⟩

theorem number_zero (p : Pos) : Typing.number "0.0" p = .ok (.float Number.zero) := by
  have hfloat : Numeral.isFloat "0.0" = true := rfl
  have hvalue : Numeral.float? "0.0" = some Number.zero := rfl
  rw [Typing.number, if_pos hfloat, hvalue]

theorem programOf_negatedZero : ProgramOf "🍽 -0.0" (Simplify.program negatedZero) := by
  have hscan : Token.scan "🍽 -0.0" = .ok negatedTokens := rfl
  have hrun : Parser.run negatedTokens = .ok negatedTree := by cbv
  have hread : read "🍽 -0.0" = .ok negatedTree := by
    rw [read, hscan]
    dsimp only
    rw [hrun]
    rfl
  refine .simplified hread ?_
  simp only [Typing.analyze, negatedTree, Typing.Check.block, Typing.Check.stmt, Typing.infer, Typing.inferAll,
    number_zero]
  rfl

theorem programOf_zero : ProgramOf "🍽 0.0" zeroProgram := by
  have hscan : Token.scan "🍽 0.0" = .ok zeroTokens := rfl
  have hrun : Parser.run zeroTokens = .ok zeroTree := by cbv
  have hread : read "🍽 0.0" = .ok zeroTree := by
    rw [read, hscan]
    dsimp only
    rw [hrun]
    rfl
  refine .plain hread ?_
  simp only [Typing.analyze, zeroTree, Typing.Check.block, Typing.Check.stmt, Typing.infer, Typing.inferAll,
    number_zero]
  rfl

/-- Dumps that are the same but for the sign of a zero do not have the same script. -/
theorem zeros_written_apart :
    ProgramOf "🍽 -0.0" (Simplify.program negatedZero) ∧ ProgramOf "🍽 0.0" zeroProgram ∧
      (∃ j j', (Simplify.program negatedZero).dump = .ok j ∧ zeroProgram.dump = .ok j' ∧ sameValue j j' = true) ∧
      Script.generate .byName (Simplify.program negatedZero) = .ok "console.log(-0.0);" ∧
      Script.generate .byName zeroProgram = .ok "console.log(0.0);" := by
  refine ⟨programOf_negatedZero, programOf_zero, ⟨_, _, rfl, rfl, ?_⟩, ?_, ?_⟩
  · rfl
  · rfl
  · rfl

end Snack.Compile
