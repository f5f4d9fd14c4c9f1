import Snack.Core.Basic

/-! Typed programs without the places that their statements stand at. -/

namespace Snack.Core

mutual

def Stmt.bare : Stmt → Stmt
  | .declare v init _ => .declare v init .unknown
  | .function f _ => .function f.bare .unknown
  | .classDecl c fields methods _ => .classDecl c fields (bareFunctions methods) .unknown
  | .assign target source _ => .assign target source .unknown
  | .addAssign target source _ => .addAssign target source .unknown
  | .increment target _ => .increment target .unknown
  | .decrement target _ => .decrement target .unknown
  | .ifElse test body rest _ => .ifElse test (bareBlock body) rest.bare .unknown
  | .whileLoop test body _ => .whileLoop test (bareBlock body) .unknown
  | .rangeLoop i low op high body _ => .rangeLoop i low op high (bareBlock body) .unknown
  | .eachLoop is collection body _ => .eachLoop is collection (bareBlock body) .unknown
  | .ret value _ => .ret value .unknown
  | .brk _ => .brk .unknown
  | .print es _ => .print es .unknown
  | .call e _ => .call e .unknown
  | .other tag _ => .other tag .unknown

def bareBlock : List Stmt → List Stmt
  | [] => []
  | s :: ss => s.bare :: bareBlock ss

def Else.bare : Else → Else
  | .none => .none
  | .block body => .block (bareBlock body)
  | .elseIf test body rest _ => .elseIf test (bareBlock body) rest.bare .unknown

def Function.bare : Function → Function
  | .mk e params body _ => .mk e params (bareBlock body) .unknown

def bareFunctions : List Function → List Function
  | [] => []
  | f :: fs => f.bare :: bareFunctions fs

end

def Program.bare (p : Program) : Program := ⟨bareBlock p.statements⟩

theorem bareBlock_append (ss ts : List Stmt) : bareBlock (ss ++ ts) = bareBlock ss ++ bareBlock ts := by
  induction ss with
  | nil => rfl
  | cons s ss ih => rw [List.cons_append, bareBlock, bareBlock, ih, List.cons_append]

end Snack.Core
