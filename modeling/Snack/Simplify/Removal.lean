import Snack.Simplify.Stmt

/-! The statements that simplification removes, in the order in which it comes upon them: what stands
inside a statement comes before the statement itself, but in a loop that never runs nothing is looked
at any more. -/

namespace Snack.Simplify

open Snack.Core

inductive Removal where
  | selfAssignment (loc : Pos)
  | whileFalse (loc : Pos)
  | emptyRange (loc : Pos)
  | emptyArray (loc : Pos)
  | deadBranch (loc : Pos)
  deriving DecidableEq

mutual

def stmtRemovals : Stmt → List Removal
  | .function f _ => functionRemovals f
  | .classDecl _ _ methods _ => functionsRemovals methods
  | .assign target source loc =>
    if sameEntity (expr source) (expr target) then [.selfAssignment loc] else []
  | .ifElse test body rest loc =>
    blockRemovals body ++ elseRemovals rest ++
      match expr test with
      | .bool _ => [.deadBranch loc]
      | _ => []
  | .whileLoop test body loc => if isFalse (expr test) then [.whileFalse loc] else blockRemovals body
  | .rangeLoop _ low _ high body loc =>
    blockRemovals body ++ if emptyRange (expr low) (expr high) then [.emptyRange loc] else []
  | .eachLoop _ collection body loc =>
    blockRemovals body ++ if isEmptyArray (expr collection) then [.emptyArray loc] else []
  | _ => []

def blockRemovals : List Stmt → List Removal
  | [] => []
  | s :: ss => stmtRemovals s ++ blockRemovals ss

def elseRemovals : Else → List Removal
  | .none => []
  | .block body => blockRemovals body
  | .elseIf test body rest loc =>
    blockRemovals body ++ elseRemovals rest ++
      match expr test with
      | .bool _ => [.deadBranch loc]
      | _ => []

def functionRemovals : Function → List Removal
  | .mk _ _ body _ => blockRemovals body

def functionsRemovals : List Function → List Removal
  | [] => []
  | f :: fs => functionRemovals f ++ functionsRemovals fs

end

/-- What is removed from a program. -/
def removals (p : Program) : List Removal := blockRemovals p.statements

end Snack.Simplify
