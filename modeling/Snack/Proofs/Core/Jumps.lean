import Snack.Core.Basic

/-! Where a program may jump. A `break` stands in a loop of its own function, a `return` in a function, and
it gives a value back exactly if the function has a result. -/

namespace Snack.Core

/-- What encloses a statement: whether a loop of the same function does, and the result of that function. -/
structure Place where
  inLoop : Bool
  result : Option Ty

namespace Place

/-- Outside of all loops and functions. -/
def top : Place := ⟨false, none⟩

def loop (pl : Place) : Place := { pl with inLoop := true }

/-- The body of a function. Loops around the function do not count in it. -/
def body (f : Entity) : Place where
  inLoop := false
  result :=
    match f.typ with
    | .function _ result => some result
    | _ => none

end Place

mutual

/-- Every jump in a statement has something to jump out of. -/
def Stmt.Jumps (pl : Place) : Stmt → Prop
  | .brk _ => pl.inLoop = true
  | .ret value _ => ∃ result, pl.result = some result ∧ (value.isSome = true ↔ result ≠ .void)
  | .function f _ => f.Jumps
  | .classDecl _ _ methods _ => jumpsInFunctions methods
  | .ifElse _ body rest _ => jumpsInBlock pl body ∧ rest.Jumps pl
  | .whileLoop _ body _ | .rangeLoop _ _ _ _ body _ | .eachLoop _ _ body _ => jumpsInBlock pl.loop body
  | .declare .. | .assign .. | .addAssign .. | .increment .. | .decrement .. | .print .. | .call ..
  | .other .. => True

def jumpsInBlock (pl : Place) : List Stmt → Prop
  | [] => True
  | s :: ss => s.Jumps pl ∧ jumpsInBlock pl ss

def Else.Jumps (pl : Place) : Else → Prop
  | .none => True
  | .block body => jumpsInBlock pl body
  | .elseIf _ body rest _ => jumpsInBlock pl body ∧ rest.Jumps pl

def Function.Jumps : Function → Prop
  | .mk e _ body _ => jumpsInBlock (.body e) body

def jumpsInFunctions : List Function → Prop
  | [] => True
  | f :: fs => f.Jumps ∧ jumpsInFunctions fs

end

def Program.Jumps (p : Program) : Prop := jumpsInBlock .top p.statements

theorem jumpsInBlock_one {pl : Place} {s : Stmt} (h : s.Jumps pl) : jumpsInBlock pl [s] := ⟨h, trivial⟩

theorem jumpsInBlock_append {pl : Place} {ss ts : List Stmt} :
    jumpsInBlock pl (ss ++ ts) ↔ jumpsInBlock pl ss ∧ jumpsInBlock pl ts := by
  induction ss with
  | nil => simp [jumpsInBlock]
  | cons s ss ih => simp [jumpsInBlock, ih, and_assoc]

end Snack.Core
