import Snack.Proofs.Core.Bare
import Snack.Script.Emit
import Snack.Simplify.Stmt

/-! Behind the analysis places are only carried along. Simplifying a program without places gives the
simplified program without places, and the script of a program is that of the program without places. -/

namespace Snack

open Snack.Core

/-! ### Simplifying -/

namespace Simplify

theorem spliced_bare (rest : Else) : spliced rest.bare = bareBlock (spliced rest) := by
  cases rest <;> rfl

theorem replaced_bare (rest : Else) : replaced rest.bare = (replaced rest).bare := by
  cases rest <;> rfl

mutual

theorem stmt_bare : ∀ s : Stmt, stmt s.bare = bareBlock (stmt s)
  | .function f _ => by
    simp only [Stmt.bare, stmt, bareBlock, function_bare f]
  | .classDecl _ _ methods _ => by
    simp only [Stmt.bare, stmt, bareBlock, functions_bare methods]
  | .assign target source _ => by
    simp only [Stmt.bare, stmt]
    split <;> rfl
  | .ifElse test body rest _ => by
    simp only [Stmt.bare, stmt, block_bare body, elsePart_bare rest]
    split
    · rfl
    · exact spliced_bare _
    · rfl
  | .whileLoop test body _ => by
    simp only [Stmt.bare, stmt, block_bare body]
    split <;> rfl
  | .rangeLoop _ low _ high body _ => by
    simp only [Stmt.bare, stmt, block_bare body]
    split <;> rfl
  | .eachLoop _ collection body _ => by
    simp only [Stmt.bare, stmt, block_bare body]
    split <;> rfl
  | .declare .. | .addAssign .. | .increment .. | .decrement .. | .ret .. | .brk .. | .print ..
  | .call .. | .other .. => rfl

theorem block_bare : ∀ ss : List Stmt, block (bareBlock ss) = bareBlock (block ss)
  | [] => rfl
  | s :: ss => by rw [bareBlock, block, block, stmt_bare s, block_bare ss, bareBlock_append]

theorem elsePart_bare : ∀ rest : Else, elsePart rest.bare = (elsePart rest).bare
  | .none => rfl
  | .block body => by rw [Else.bare, elsePart, elsePart, Else.bare, block_bare body]
  | .elseIf test body rest _ => by
    simp only [Else.bare, elsePart, block_bare body, elsePart_bare rest]
    split
    · rfl
    · exact replaced_bare _
    · rfl

theorem function_bare : ∀ f : Function, function f.bare = (function f).bare
  | .mk _ _ body _ => by rw [Function.bare, function, function, Function.bare, block_bare body]

theorem functions_bare : ∀ fs : List Function, functions (bareFunctions fs) = bareFunctions (functions fs)
  | [] => rfl
  | f :: fs => by
    rw [bareFunctions, functions, functions, bareFunctions, function_bare f, functions_bare fs]

end

theorem program_bare (p : Program) : program p.bare = (program p).bare :=
  congrArg Program.mk (block_bare p.statements)

end Simplify

/-! ### Writing -/

namespace Script

theorem entity_bare (f : Function) : f.bare.entity = f.entity := by
  cases f with
  | mk e params body p => rfl

mutual

theorem stmt_bare (m : Mangling) : ∀ (depth : Nat) (s : Stmt), stmt m depth s.bare = stmt m depth s
  | depth, .function f _ => by
    simp only [Stmt.bare, stmt, entity_bare, function_bare m _ _ _ f]
  | depth, .classDecl _ _ ms _ => by simp only [Stmt.bare, stmt, methods_bare m _ ms]
  | depth, .ifElse _ body rest _ => by
    simp only [Stmt.bare, stmt, block_bare m _ body, elsePart_bare m _ rest]
  | depth, .whileLoop _ body _ => by simp only [Stmt.bare, stmt, block_bare m _ body]
  | depth, .rangeLoop _ _ _ _ body _ => by simp only [Stmt.bare, stmt, block_bare m _ body]
  | depth, .eachLoop _ _ body _ => by simp only [Stmt.bare, stmt, block_bare m _ body]
  | depth, .declare _ none _ | depth, .declare _ (some _) _ | depth, .assign .. | depth, .addAssign ..
  | depth, .increment .. | depth, .decrement .. | depth, .ret none _ | depth, .ret (some _) _
  | depth, .brk .. | depth, .print .. | depth, .call .. | depth, .other .. => rfl

theorem block_bare (m : Mangling) : ∀ (depth : Nat) (ss : List Stmt),
    block m depth (bareBlock ss) = block m depth ss
  | _, [] => rfl
  | depth, s :: ss => by rw [bareBlock, block, block, stmt_bare m depth s, block_bare m depth ss]

theorem elsePart_bare (m : Mangling) : ∀ (depth : Nat) (rest : Else),
    elsePart m depth rest.bare = elsePart m depth rest
  | _, .none => rfl
  | _, .block [] => rfl
  | depth, .block (s :: ss) => by
    simp only [Else.bare, elsePart, bareBlock, block, stmt_bare m _ s, block_bare m _ ss]
  | depth, .elseIf _ body rest _ => by
    simp only [Else.bare, elsePart, block_bare m _ body, elsePart_bare m _ rest]

theorem function_bare (m : Mangling) : ∀ (depth : Nat) (keyword name : String) (f : Function),
    function m depth keyword name f.bare = function m depth keyword name f
  | _, _, _, .mk _ _ body _ => by simp only [Function.bare, function, block_bare m _ body]

theorem methods_bare (m : Mangling) : ∀ (depth : Nat) (fs : List Function),
    methods m depth (bareFunctions fs) = methods m depth fs
  | _, [] => rfl
  | depth, f :: fs => by
    simp only [bareFunctions, methods, entity_bare, function_bare m _ _ _ f, methods_bare m _ fs]

end

/-- Places leave no trace in a script. -/
theorem generate_bare (m : Mangling) (p : Program) : generate m p.bare = generate m p := by
  unfold generate run
  rw [show block m 0 p.bare.statements = _ from block_bare m 0 p.statements]

theorem generate_congr {p q : Program} (h : p.bare = q.bare) (m : Mangling) :
    generate m p = generate m q := by
  rw [← generate_bare, h, generate_bare]

end Script

end Snack
