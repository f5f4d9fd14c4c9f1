import Snack.Proofs.Core.Nodes
import Snack.Proofs.Simplify.Writable

/-! Simplifying a program makes no new statements: each one that is left lies in the same functions as one
that stood there before, has the simplified forms of its expressions, and declares the same class. -/

namespace Snack.Simplify

open Snack.Core
open Snack.Typing (Node)

/-- The placed node `y` is what simplification makes of `x`. -/
structure StemsNode (y x : Placed) : Prop where
  frames : y.frames = x.frames
  target : targetOf y.node = (targetOf x.node).map expr
  exprs : exprsOf y.node = (exprsOf x.node).map expr
  cls : ∀ c fields methods p, y.node = .stmt (.classDecl c fields methods p) →
    ∃ ms, x.node = .stmt (.classDecl c fields ms p) ∧ methods = functions ms

/-- Every node of `ys` stems from one of `xs`. -/
def StemNodes (ys xs : List Placed) : Prop := ∀ y ∈ ys, ∃ x ∈ xs, StemsNode y x

namespace StemNodes

variable {ys zs xs ws : List Placed} {x y : Placed}

theorem nil : StemNodes [] xs := List.forall_mem_nil _

theorem mono (h : StemNodes ys xs) (hsub : xs ⊆ ws) : StemNodes ys ws := by
  intro y hy
  obtain ⟨x, hx, hstems⟩ := h y hy
  exact ⟨x, hsub hx, hstems⟩

theorem append (h : StemNodes ys xs) (h' : StemNodes zs ws) : StemNodes (ys ++ zs) (xs ++ ws) :=
  List.forall_mem_append.2
    ⟨h.mono (List.subset_append_left _ _), h'.mono (List.subset_append_right _ _)⟩

theorem cons (hyx : StemsNode y x) (h : StemNodes ys xs) : StemNodes (y :: ys) (x :: xs) :=
  List.forall_mem_cons.2 ⟨⟨x, List.mem_cons_self, hyx⟩, h.mono (List.subset_cons_self _ _)⟩

theorem one (hyx : StemsNode y x) : StemNodes [y] [x] := cons hyx nil

/-- A test that is decided goes with the branch that it does not take. -/
theorem taken (h : StemNodes ys xs) : StemNodes ys (x :: (xs ++ ws)) :=
  h.mono (List.Subset.trans (List.subset_append_left _ _) (List.subset_cons_self _ _))

theorem passed (h : StemNodes ys ws) : StemNodes ys (x :: (xs ++ ws)) :=
  h.mono (List.Subset.trans (List.subset_append_right _ _) (List.subset_cons_self _ _))

end StemNodes

/-- A statement that declares no class. -/
theorem StemsNode.of_exprs {fs : List Frame} {n m : Node} (ht : targetOf n = (targetOf m).map expr)
    (he : exprsOf n = (exprsOf m).map expr)
    (hc : ∀ c fields methods p, n ≠ .stmt (.classDecl c fields methods p)) : StemsNode ⟨fs, n⟩ ⟨fs, m⟩ :=
  ⟨rfl, ht, he, fun c fields methods p h => absurd h (hc c fields methods p)⟩

theorem toList_map_expr (o : Option Expr) : (o.map expr).toList = o.toList.map expr := by
  cases o <;> rfl

section Nodes

variable {fs : List Frame}

/-- What is left of a branch stands in the place of its test or of a branch before it. -/
theorem nodes_spliced {xs : List Placed} (e : Else) (h : StemNodes (e.nodes fs) xs) :
    StemNodes (nodesOfBlock fs (spliced e)) xs := by
  cases e with
  | none => exact .nil
  | block b => exact h
  | elseIf t b e p =>
    obtain ⟨⟨x, hx, hstems⟩, hrest⟩ := List.forall_mem_cons.1 h
    rw [spliced, nodesOfBlock_one]
    refine List.forall_mem_cons.2 ⟨⟨x, hx, hstems.frames, hstems.target, hstems.exprs, ?_⟩, hrest⟩
    rintro c fields methods q ⟨⟩

theorem nodes_replaced (e : Else) : (replaced e).nodes fs = e.nodes fs := by
  cases e <;> rfl

mutual

theorem stemNodes_stmt (fs : List Frame) (s : Stmt) : StemNodes (nodesOfBlock fs (stmt s)) (s.nodes fs) := by
  cases s with
  | declare v init p =>
    rw [stmt, nodesOfBlock_one]
    exact .one (.of_exprs rfl (toList_map_expr init) (by rintro _ _ _ _ ⟨⟩))
  | function f p =>
    rw [stmt, nodesOfBlock_one]
    exact .cons (.of_exprs rfl rfl (by rintro _ _ _ _ ⟨⟩)) (stemNodes_function none fs f)
  | classDecl c fields methods p =>
    rw [stmt, nodesOfBlock_one]
    refine .cons ⟨rfl, rfl, rfl, ?_⟩ (stemNodes_functions (some c) fs methods)
    rintro _ _ _ _ ⟨⟩
    exact ⟨methods, rfl, rfl⟩
  | assign t s p =>
    rw [stmt]
    split
    · exact .nil
    · rw [nodesOfBlock_one]
      exact .one (.of_exprs rfl rfl (by rintro _ _ _ _ ⟨⟩))
  | ifElse t b e p =>
    have hb := stemNodes_block fs b
    have he := stemNodes_elsePart fs e
    rw [stmt]
    split
    · exact hb.taken
    · exact (nodes_spliced _ he).passed
    · rw [nodesOfBlock_one]
      exact .cons (.of_exprs rfl rfl (by rintro _ _ _ _ ⟨⟩)) (hb.append he)
  | whileLoop t b p =>
    rw [stmt]
    split
    · exact .nil
    · rw [nodesOfBlock_one]
      exact .cons (.of_exprs rfl rfl (by rintro _ _ _ _ ⟨⟩)) (stemNodes_block fs b)
  | rangeLoop i lo op hi b p =>
    rw [stmt]
    split
    · exact .nil
    · rw [nodesOfBlock_one]
      exact .cons (.of_exprs rfl rfl (by rintro _ _ _ _ ⟨⟩)) (stemNodes_block fs b)
  | eachLoop is c b p =>
    rw [stmt]
    split
    · exact .nil
    · rw [nodesOfBlock_one]
      exact .cons (.of_exprs rfl rfl (by rintro _ _ _ _ ⟨⟩)) (stemNodes_block fs b)
  | ret value p =>
    rw [stmt, nodesOfBlock_one]
    exact .one (.of_exprs rfl (toList_map_expr value) (by rintro _ _ _ _ ⟨⟩))
  | print es p =>
    rw [stmt, nodesOfBlock_one]
    exact .one (.of_exprs rfl (exprs_eq_map es) (by rintro _ _ _ _ ⟨⟩))
  | _ => exact .one (.of_exprs rfl rfl (by rintro _ _ _ _ ⟨⟩))

theorem stemNodes_block (fs : List Frame) (ss : List Stmt) :
    StemNodes (nodesOfBlock fs (block ss)) (nodesOfBlock fs ss) := by
  cases ss with
  | nil => exact .nil
  | cons s ss =>
    rw [block, nodesOfBlock_append]
    exact (stemNodes_stmt fs s).append (stemNodes_block fs ss)

theorem stemNodes_elsePart (fs : List Frame) (e : Else) : StemNodes ((elsePart e).nodes fs) (e.nodes fs) := by
  cases e with
  | none => exact .nil
  | block b => exact stemNodes_block fs b
  | elseIf t b e p =>
    have hb := stemNodes_block fs b
    have he := stemNodes_elsePart fs e
    rw [elsePart]
    split
    · exact hb.taken
    · rw [nodes_replaced]
      exact he.passed
    · exact .cons (.of_exprs rfl rfl (by rintro _ _ _ _ ⟨⟩)) (hb.append he)

theorem stemNodes_function (cls : Option Entity) (fs : List Frame) (f : Function) :
    StemNodes ((function f).nodes cls fs) (f.nodes cls fs) := by
  cases f with
  | mk e ps b p => exact stemNodes_block _ b

theorem stemNodes_functions (cls : Option Entity) (fs : List Frame) (gs : List Function) :
    StemNodes (nodesOfFunctions cls fs (functions gs)) (nodesOfFunctions cls fs gs) := by
  cases gs with
  | nil => exact .nil
  | cons g gs => exact (stemNodes_function cls fs g).append (stemNodes_functions cls fs gs)

end

end Nodes

theorem stemNodes_program (p : Program) : StemNodes (program p).nodes p.nodes :=
  stemNodes_block [] p.statements

end Snack.Simplify
