import Snack.Proofs.Compile.Indented
import Snack.Proofs.Compile.Integers
import Snack.Proofs.Compile.Shown
import Snack.Proofs.Core.Renumbered
import Snack.Proofs.Script.Signs

/-! Minus signs in compiled scripts. A number below zero stands in parentheses, so that it can follow a minus
sign and be raised to a power; only a negative zero, at the left end of an expression, is written without. -/

namespace Snack.Compile

open Snack.Core

theorem ProgramOf.written {source : String} {q : Program} (h : ProgramOf source q) : q.Writable ∧ q.Spelled := by
  cases h with
  | plain hread hp => exact written_of_analyze hread hp ⟨false, .byEntity⟩
  | simplified hread hp => exact written_of_analyze hread hp ⟨true, .byEntity⟩

/-- All expressions of the program of a source text can be written out. -/
theorem ProgramOf.exprs {source : String} {q : Program} (h : ProgramOf source q) {x : Site} (hx : x ∈ q.sites)
    {e : Expr} (he : e ∈ x.expr.parts) : Writable e ∧ Spelled e := by
  obtain ⟨hwritable, hspelled⟩ := h.written
  have hw : Writable x.expr := forall_sitesOfBlock (fun s hs => (hwritable s hs).sites) [] x hx
  have hs : Spelled x.expr := forall_sitesOfBlock (fun s hs => (hspelled s hs).sites) [] x hx
  exact ⟨forall_parts (fun _ => Writable.direct) _ hw e he, forall_parts (fun _ => Spelled.direct) _ hs e he⟩

/-- Every expression in the program of a source text, whatever numbers are put in the place of its literals,
has a text, and the text begins with a minus sign exactly if a negative zero stands at its left end. -/
theorem minus_begins_negative_zero_only {source : String} {q : Program} (h : ProgramOf source q) {x : Site}
    (hx : x ∈ q.sites) {e d : Expr} (he : e ∈ x.expr.parts) (hd : Renumbered e d) (m : Script.Mangling)
    (depth : Nat) {st : Script.State} (hst : Script.Clean st) :
    ∃ text st', Script.expr m depth d st = .ok text st' ∧ Script.Clean st' ∧
      (text.toList.head? = some '-' ↔ Script.LedByNegativeZero d) := by
  obtain ⟨hwritable, hspelled⟩ := h.exprs hx he
  have hemits := Script.emits_expr (U := fun _ => True) (m := m) (d := depth) (hwritable.renumbered hd)
    (fun _ _ _ => trivial) st
  cases hrun : Script.expr m depth d st with
  | error e st' =>
    rw [hrun] at hemits
    exact hemits.elim
  | ok text st' =>
    obtain ⟨hclean, -, hsigned, -⟩ :=
      Script.signed_expr (n := 0) (hspelled.renumbered hd) st text st' hst hrun
    exact ⟨text, st', rfl, hclean, hsigned.minus⟩

theorem site_negatedZero :
    (⟨.value, .float (-Number.zero), []⟩ : Site) ∈ (Simplify.program negatedZero).sites :=
  List.mem_singleton_self _

/-- The number below zero in the place of the negative zero is put in parentheses. -/
theorem minus_begins_negative_zero_only_one :
    ProgramOf "🍽 -0.0" (Simplify.program negatedZero) ∧
      ∃ text st', Script.expr .byEntity 0 (.float (-Number.one)) ⟨[], #[]⟩ = .ok text st' ∧
        Script.Clean st' ∧
        (text.toList.head? = some '-' ↔ Script.LedByNegativeZero (.float (-Number.one))) :=
  ⟨programOf_negatedZero, minus_begins_negative_zero_only programOf_negatedZero site_negatedZero
    List.mem_cons_self (.float _ _) .byEntity 0 (List.forall_mem_nil _)⟩

/-- A negative zero is written with a bare minus sign, before a point also. -/
theorem negative_zero_written_bare :
    ProgramOf "🍽 -0.0" (Simplify.program negatedZero) ∧
      (⟨.value, .float (-Number.zero), []⟩ : Site) ∈ (Simplify.program negatedZero).sites ∧
      Script.generate .byEntity (Simplify.program negatedZero) = .ok "console.log(-0.0);" ∧
      Script.expr .byEntity 0 (.float (-Number.zero)) ⟨[], #[]⟩ = .ok "-0.0" ⟨[], #[]⟩ := by
  refine ⟨programOf_negatedZero, site_negatedZero, rfl, ?_⟩
  have htext : Script.floatLiteral (-Number.zero) = "-0.0" := rfl
  rw [Script.expr, htext]
  rfl

end Snack.Compile
