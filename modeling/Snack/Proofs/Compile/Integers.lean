import Snack.Proofs.Compile.Outcome
import Snack.Proofs.Simplify.Integers
import Snack.Proofs.Typing.Integers

/-! Integers in programs. A source text writes them without a sign and with at most 1024 bits; simplification
can make them negative but not wider, so each of them is written out in digits. -/

namespace Snack.Compile

open Snack.Core

theorem fits_iff {n : Int} : Number.fits n = true ↔ n.natAbs < Nat.pow 2 1024 := by
  have hbits : Number.maxBits = 1024 := rfl
  rw [← hbits, Number.fits, decide_eq_true_eq]

theorem intLiteral_of_fits {n : Int} (h : Number.fits n = true) :
    Script.intLiteral n = if n < 0 then "(" ++ toString n ++ ")" else toString n := by
  rw [Script.intLiteral, h]
  rfl

/-- The integers of an accepted source text lie between zero and 2¹⁰²⁴. However often its program is
simplified, none of them gets as wide as that, so each is written in digits and none as an infinity. -/
theorem integers_stay_in_range {source : String} {tree : Tree.Program} {p : Program}
    (hread : read source = .ok tree) (hp : (Typing.analyze tree).1 = .ok p) :
    (∀ n, p.HasInteger n → 0 ≤ n ∧ n.natAbs < Nat.pow 2 1024) ∧
    ∀ k n, (Simplify.program^[k] p).HasInteger n → n.natAbs < Nat.pow 2 1024 ∧
      Script.intLiteral n = if n < 0 then "(" ++ toString n ++ ")" else toString n := by
  have hparse := parse_of_read source
  rw [hread] at hparse
  have hanalyze : Typing.analyze tree = (.ok p, (Typing.analyze tree).2) := Prod.ext hp rfl
  have hwritten := Typing.worded_of_analyze (fun hst ht he => Typing.integersIn_infer hst ht he) hparse.1 hanalyze
  have hfits : ∀ s ∈ p.statements, Worded Simplify.Fits (.stmt s) :=
    fun s hs => (hwritten s hs).imp fun e he n hn => (he n hn).2
  constructor
  · rintro n ⟨x, hx, hn⟩
    obtain ⟨hnonneg, hwidth⟩ := forall_sitesOfBlock (fun s hs => (hwritten s hs).sites) [] x hx n hn
    exact ⟨hnonneg, fits_iff.1 hwidth⟩
  · rintro k n ⟨x, hx, hn⟩
    have hwidth := forall_sitesOfBlock (fun s hs => (Simplify.fits_iterate hfits k s hs).sites) [] x hx n hn
    exact ⟨fits_iff.1 hwidth, intLiteral_of_fits hwidth⟩

/-- Arithmetic that comes down to a negative integer. -/
def belowSource : String := "🍽 1 - 2 * 3"

def belowTokens : List Token :=
  [⟨.keyword, "🍽", ⟨1, 1⟩⟩, ⟨.number, "1", ⟨1, 3⟩⟩, ⟨.op, "-", ⟨1, 5⟩⟩, ⟨.number, "2", ⟨1, 7⟩⟩,
    ⟨.op, "*", ⟨1, 9⟩⟩, ⟨.number, "3", ⟨1, 11⟩⟩, .endAt ⟨1, 12⟩]

def belowTree : Tree.Program :=
  [.print ⟨1, 1⟩ [.binary ⟨1, 3⟩ .sub (.num ⟨1, 3⟩ "1")
    (.binary ⟨1, 7⟩ .mul (.num ⟨1, 7⟩ "2") (.num ⟨1, 11⟩ "3"))]]

def below : Program :=
  ⟨[.print [.binary .sub (.int 1) (.binary .mul (.int 2) (.int 3) .int) .int] ⟨1, 1⟩]⟩

theorem read_below : read belowSource = .ok belowTree := by
  have hscan : Token.scan belowSource = .ok belowTokens := rfl
  have hrun : Parser.run belowTokens = .ok belowTree := by cbv
  rw [read, hscan]
  dsimp only
  rw [hrun]
  rfl

theorem analyze_below : (Typing.analyze belowTree).1 = .ok below := by
  have hone (p : Pos) : Typing.number "1" p = .ok (.int 1) :=
    Typing.number_eq_int rfl (by decide) rfl (Number.fits_of_lt (by decide))
  have htwo (p : Pos) : Typing.number "2" p = .ok (.int 2) :=
    Typing.number_eq_int rfl (by decide) rfl (Number.fits_of_lt (by decide))
  have hthree (p : Pos) : Typing.number "3" p = .ok (.int 3) :=
    Typing.number_eq_int rfl (by decide) rfl (Number.fits_of_lt (by decide))
  simp only [Typing.analyze, belowTree, Typing.Check.block, Typing.Check.stmt, Typing.infer, Typing.inferAll,
    hone, htwo, hthree]
  rfl

theorem hasInteger_below : (Simplify.program below).HasInteger (-5) := by
  have hsix : Number.fits 6 = true := Number.fits_of_lt (by decide)
  have hfive : Number.fits (-5) = true := Number.fits_of_lt (by decide)
  refine ⟨⟨.value, .int (-5), []⟩, ?_, List.mem_singleton_self _⟩
  simp [below, Program.sites, sitesOfBlock, Stmt.sites, Simplify.program, Simplify.block, Simplify.stmt,
    Simplify.exprs, Simplify.expr, Simplify.binary, Simplify.binary?, Simplify.number?, Number.fold?,
    Number.arith?, Number.Value.ofNumber?, Simplify.ofValue, Simplify.ofNumber, hsix, hfive]

theorem integers_stay_in_range_below :
    read belowSource = .ok belowTree ∧ (Typing.analyze belowTree).1 = .ok below ∧
      (∀ n, below.HasInteger n → 0 ≤ n ∧ n.natAbs < Nat.pow 2 1024) ∧
      (Simplify.program^[1] below).HasInteger (-5) ∧ (-5 : Int).natAbs < Nat.pow 2 1024 ∧
      Script.intLiteral (-5) = "(-5)" :=
  have h := integers_stay_in_range read_below analyze_below
  have hfive := h.2 1 (-5) hasInteger_below
  ⟨read_below, analyze_below, h.1, hasInteger_below, hfive.1, hfive.2⟩

end Snack.Compile
