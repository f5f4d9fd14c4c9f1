import Snack.Proofs.Compile.Channels
import Snack.Proofs.Script.Blocks
import Snack.Proofs.Simplify.Sites
import Snack.Proofs.Typing.Blocks
import Snack.Proofs.Typing.Spelled

/-! Declarations in the blocks of a compiled script. No block declares an identifier twice, unless names are
told apart by their spelling only and simplification has moved the statements of a branch into the block
around it, where one of them declares a name that the block has already. -/

namespace Snack.Compile

open Snack.Core

/-! ### Keys in a block -/

theorem nodup_ids {p : Program} (h : p.DeclaresOnce) :
    ∀ b ∈ p.blocks, (b.map Script.Mangling.byEntity.key).Nodup := by
  intro b hb
  have hids : (b.map (·.id)).Nodup := h.sublist ((p.within b hb).1.map _)
  rw [List.Nodup, List.pairwise_map] at hids ⊢
  exact hids.imp fun hne hkey => hne (Script.Key.entity.inj hkey)

theorem nodup_names_iff (b : List Entity) :
    (b.map Script.Mangling.byName.key).Nodup ↔ (b.map (·.name)).Nodup := by
  rw [List.Nodup, List.pairwise_map, List.Nodup, List.pairwise_map]
  refine ⟨fun h => h.imp fun hne hname => hne (congrArg Script.Key.name hname), fun h => ?_⟩
  exact h.imp fun hne hkey => hne (Script.Key.name.inj hkey)

theorem declaresOnce_program {p : Program} (h : p.DeclaresOnce) : (Simplify.program p).DeclaresOnce :=
  h.sublist ((Simplify.declared_program_sublist p).map _)

/-! ### Scripts -/

/-- The script of a program that declares every entity once, and no two of one name in a block. -/
theorem nodup_script_iff {s : Settings} {p : Program} {text : String} (h : script s p = .ok text)
    (hspelled : p.Spelled) (honce : p.DeclaresOnce) (hnames : ∀ b ∈ p.blocks, (b.map (·.name)).Nodup) :
    (∀ b ∈ Script.blocks text, b.Nodup) ↔ (s.optimize = true → s.mangling = .byName →
      ∀ b ∈ (Simplify.program p).blocks, (b.map (·.name)).Nodup) := by
  obtain ⟨optimize, mangling⟩ := s
  have hgenerate : Script.generate mangling (if optimize then Simplify.program p else p) = .ok text := by
    unfold script at h
    cases hg : Script.generate mangling (if optimize then Simplify.program p else p) with
    | ok text' =>
      rw [hg] at h
      exact congrArg Except.ok (Except.ok.inj h)
    | error e =>
      rw [hg] at h
      cases h
  cases optimize with
  | false =>
    rw [Script.nodup_blocks_iff hspelled hgenerate]
    refine iff_of_true ?_ fun hoptimize => nomatch hoptimize
    cases mangling with
    | byEntity => exact nodup_ids honce
    | byName => exact fun b hb => (nodup_names_iff b).2 (hnames b hb)
  | true =>
    rw [Script.nodup_blocks_iff (Simplify.spelled_program hspelled) hgenerate]
    cases mangling with
    | byEntity =>
      exact iff_of_true (nodup_ids (declaresOnce_program honce)) fun _ hmangling => nomatch hmangling
    | byName =>
      refine ⟨fun h _ _ b hb => (nodup_names_iff b).1 (h b hb), fun h b hb => ?_⟩
      exact (nodup_names_iff b).2 (h rfl rfl b hb)

theorem compile_of_analyze {source : String} {tree : Tree.Program} {p : Program}
    (hread : read source = .ok tree) (hp : (Typing.analyze tree).1 = .ok p) (settings : Settings) :
    compile settings source = script (settings.adjusted source) p := by
  rw [compile_eq, hread]
  show ((Typing.analyze tree).1.mapError Failure.typing >>= _) = _
  rw [hp]
  rfl

/-- Every source text that is accepted has a script, and no block of it declares an identifier twice, but for
names that are told apart by their spelling in a program that is simplified: then this is so if and only if
no block of the simplified program declares two entities of one name. -/
theorem blocks_declare_once {source : String} {tree : Tree.Program} {p : Program}
    (hread : read source = .ok tree) (hp : (Typing.analyze tree).1 = .ok p) (settings : Settings) :
    ∃ text, compile settings source = .ok text ∧ ((∀ b ∈ Script.blocks text, b.Nodup) ↔
      ((settings.adjusted source).optimize = true → (settings.adjusted source).mangling = .byName →
        ∀ b ∈ (Simplify.program p).blocks, (b.map (·.name)).Nodup)) := by
  have hparse := parse_of_read source
  rw [hread] at hparse
  have hwritable := analyze_of_formed hparse.1
  rw [hp] at hwritable
  have hanalyze : Typing.analyze tree = (.ok p, (Typing.analyze tree).2) := Prod.ext hp rfl
  obtain ⟨text, htext⟩ := exists_script (settings.adjusted source) hwritable.1 hwritable.2.1
  obtain ⟨honce, hnames⟩ := Typing.declares_of_analyze hanalyze
  have hspelled := Typing.spelled_of_analyze hparse.1 hanalyze
  exact ⟨text, (compile_of_analyze hread hp settings).trans htext,
    nodup_script_iff htext hspelled honce hnames⟩

/-! ### A branch that is taken in any case -/

/-- A variable, and another one of its name in a branch. -/
def branchSource : String := "🍳 x = 🥗\n🧁 🥗: 🍳 x = 🥗 🍽 x ;\n🍽 x"

def branchTokens : List Token :=
  [⟨.keyword, "🍳", ⟨1, 1⟩⟩, ⟨.ident, "x", ⟨1, 3⟩⟩, ⟨.op, "=", ⟨1, 5⟩⟩, ⟨.keyword, "🥗", ⟨1, 7⟩⟩,
    ⟨.keyword, "🧁", ⟨2, 1⟩⟩, ⟨.keyword, "🥗", ⟨2, 3⟩⟩, ⟨.op, ":", ⟨2, 4⟩⟩, ⟨.keyword, "🍳", ⟨2, 6⟩⟩,
    ⟨.ident, "x", ⟨2, 8⟩⟩, ⟨.op, "=", ⟨2, 10⟩⟩, ⟨.keyword, "🥗", ⟨2, 12⟩⟩, ⟨.keyword, "🍽", ⟨2, 14⟩⟩,
    ⟨.ident, "x", ⟨2, 16⟩⟩, ⟨.op, ";", ⟨2, 18⟩⟩, ⟨.keyword, "🍽", ⟨3, 1⟩⟩, ⟨.ident, "x", ⟨3, 3⟩⟩,
    .endAt ⟨3, 4⟩]

def branchTree : Tree.Program :=
  [.varDecl ⟨1, 1⟩ none "x" (some (.bool ⟨1, 7⟩ true)),
    .ifChain ⟨2, 1⟩ (.bool ⟨2, 3⟩ true)
      [.varDecl ⟨2, 6⟩ none "x" (some (.bool ⟨2, 12⟩ true)), .print ⟨2, 14⟩ [.var ⟨2, 16⟩ "x"]] [] none,
    .print ⟨3, 1⟩ [.var ⟨3, 3⟩ "x"]]

def branchProgram : Program :=
  let outer : Entity := ⟨14, .var true, "x", .bool⟩
  let inner : Entity := ⟨15, .var true, "x", .bool⟩
  ⟨[.declare outer (some (.bool true)) ⟨1, 1⟩,
    .ifElse (.bool true) [.declare inner (some (.bool true)) ⟨2, 6⟩, .print [.ref inner] ⟨2, 14⟩] .none ⟨2, 1⟩,
    .print [.ref outer] ⟨3, 1⟩]⟩

theorem read_branch : read branchSource = .ok branchTree := by
  have hscan : Token.scan branchSource = .ok branchTokens := rfl
  have hrun : Parser.run branchTokens = .ok branchTree := by cbv
  rw [read, hscan]
  dsimp only
  rw [hrun]
  rfl

theorem analyze_branch : (Typing.analyze branchTree).1 = .ok branchProgram := rfl

theorem blocks_declare_once_branch :
    read branchSource = .ok branchTree ∧ (Typing.analyze branchTree).1 = .ok branchProgram ∧
      ∃ text, compile ⟨true, .byName⟩ branchSource = .ok text ∧ ((∀ b ∈ Script.blocks text, b.Nodup) ↔
        (((⟨true, .byName⟩ : Settings).adjusted branchSource).optimize = true →
          ((⟨true, .byName⟩ : Settings).adjusted branchSource).mangling = .byName →
          ∀ b ∈ (Simplify.program branchProgram).blocks, (b.map (·.name)).Nodup)) :=
  ⟨read_branch, analyze_branch, blocks_declare_once read_branch analyze_branch _⟩

/-- Told apart by their spelling only, both variables are declared in one block. -/
theorem branch_declares_twice :
    ∃ text, compile ⟨true, .byName⟩ branchSource = .ok text ∧ ¬ ∀ b ∈ Script.blocks text, b.Nodup := by
  refine ⟨"let x_1 = true;\nlet x_1 = true;\nconsole.log(x_1);\nconsole.log(x_1);", ?_, by decide⟩
  rw [compile_of_analyze read_branch analyze_branch]
  rfl

end Snack.Compile
