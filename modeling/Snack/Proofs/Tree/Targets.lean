import Snack.Proofs.Tree.Formed

/-! The targets of assignments in a tree. -/

namespace Snack.Tree

/-- A name or a member. -/
def Expr.isPlace : Expr → Bool
  | .var .. | .member .. => true
  | _ => false

mutual

/-- What a statement and those in it assign to. -/
def Stmt.targets : Stmt → List Expr
  | .assign _ target _ | .addAssign _ target _ | .bump _ target _ => [target]
  | .function _ _ _ _ body | .classDecl _ _ body | .whileLoop _ _ body | .rangeLoop _ _ _ _ _ body
  | .eachLoop _ _ _ body => targetsOfBlock body
  | .ifChain _ _ body elseIfs none => targetsOfBlock body ++ targetsOfClauses elseIfs
  | .ifChain _ _ body elseIfs (some elsePart) =>
    targetsOfBlock body ++ (targetsOfClauses elseIfs ++ targetsOfBlock elsePart)
  | .varDecl .. | .collection .. | .print .. | .ret .. | .brk _ | .call .. | .unknown .. | .absent _
  | .incomplete _ => []

def targetsOfBlock : List Stmt → List Expr
  | [] => []
  | s :: ss => s.targets ++ targetsOfBlock ss

def targetsOfClauses : List ElseIf → List Expr
  | [] => []
  | .mk _ _ body :: cs => targetsOfBlock body ++ targetsOfClauses cs

end

/-- All assignments are to names and members. -/
def Stmt.AssignsPlaces (s : Stmt) : Prop := ∀ t ∈ s.targets, t.isPlace = true

theorem forall_targetsOfBlock {ss : List Stmt} :
    (∀ t ∈ targetsOfBlock ss, t.isPlace = true) ↔ ∀ s ∈ ss, s.AssignsPlaces := by
  induction ss with
  | nil => simp [targetsOfBlock]
  | cons s ss ih => rw [targetsOfBlock, List.forall_mem_append, List.forall_mem_cons, ih, Stmt.AssignsPlaces]

theorem forall_targetsOfClauses {cs : List ElseIf} :
    (∀ t ∈ targetsOfClauses cs, t.isPlace = true) ↔ ∀ s ∈ cs.flatMap ElseIf.body, s.AssignsPlaces := by
  induction cs with
  | nil => simp [targetsOfClauses]
  | cons c cs ih =>
    obtain ⟨p, test, body⟩ := c
    rw [targetsOfClauses, List.forall_mem_append, List.flatMap_cons, List.forall_mem_append, ih,
      forall_targetsOfBlock]
    rfl

end Snack.Tree
