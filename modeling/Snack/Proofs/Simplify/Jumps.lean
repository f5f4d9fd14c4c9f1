import Mathlib.Logic.Function.Iterate
import Snack.Proofs.Simplify.Reducts
import Snack.Proofs.Typing.Jumps

/-! Simplification keeps jumps where they may stand: loops are removed and branches take the place of their
statement, but all that is left has something to jump out of, however often a program is simplified. -/

namespace Snack.Simplify

open Snack.Core Snack.Typing

/-! ### What takes the place of a statement -/

section Passes

variable {pl : Place}

theorem jumps_spliced {e : Else} (h : e.Jumps pl) : jumpsInBlock pl (spliced e) := by
  cases e with
  | none => trivial
  | block b => exact h
  | elseIf t b e p => exact jumpsInBlock_one h

theorem jumps_replaced {e : Else} (h : e.Jumps pl) : (replaced e).Jumps pl := by
  cases e with
  | none => trivial
  | block b => exact h
  | elseIf t b e p => exact h

/-- A statement that may be left out. -/
theorem jumps_unless {c : Bool} {s : Stmt} (h : s.Jumps pl) : jumpsInBlock pl (if c then [] else [s]) := by
  cases c with
  | true => trivial
  | false => exact jumpsInBlock_one h

mutual

/-- The branches that take the place of a statement stand where it stood. What stands in a loop stays in it
or goes with it. -/
theorem jumps_stmt {pl : Place} (s : Stmt) (h : s.Jumps pl) : jumpsInBlock pl (stmt s) := by
  cases s with
  | ifElse t b e p =>
    have hb := jumps_block b h.1
    have he := jumps_elsePart e h.2
    rw [stmt]
    split
    · exact hb
    · exact jumps_spliced he
    · exact jumpsInBlock_one ⟨hb, he⟩
  | whileLoop t b p => exact jumps_unless (jumps_block b h)
  | rangeLoop i lo op hi b p => exact jumps_unless (jumps_block b h)
  | eachLoop is c b p => exact jumps_unless (jumps_block b h)
  | function f p => exact jumpsInBlock_one (jumps_function f h)
  | classDecl c fields methods p => exact jumpsInBlock_one (jumps_functions methods h)
  | ret value p =>
    obtain ⟨result, hresult, hvalue⟩ := h
    refine jumpsInBlock_one ⟨result, hresult, ?_⟩
    rw [Option.isSome_map]
    exact hvalue
  | brk p => exact jumpsInBlock_one h
  | assign t s p => exact jumps_unless trivial
  | declare | addAssign | increment | decrement | print | call | other => exact jumpsInBlock_one trivial

theorem jumps_block {pl : Place} (ss : List Stmt) (h : jumpsInBlock pl ss) : jumpsInBlock pl (block ss) := by
  cases ss with
  | nil => trivial
  | cons s ss => exact jumpsInBlock_append.2 ⟨jumps_stmt s h.1, jumps_block ss h.2⟩

theorem jumps_elsePart {pl : Place} (e : Else) (h : e.Jumps pl) : (elsePart e).Jumps pl := by
  cases e with
  | none => trivial
  | block b => exact jumps_block b h
  | elseIf t b e p =>
    have hb := jumps_block b h.1
    have he := jumps_elsePart e h.2
    rw [elsePart]
    split
    · exact hb
    · exact jumps_replaced he
    · exact ⟨hb, he⟩

theorem jumps_function (f : Function) (h : f.Jumps) : (function f).Jumps := by
  cases f with
  | mk e ps b p => exact jumps_block b h

theorem jumps_functions (fs : List Function) (h : jumpsInFunctions fs) : jumpsInFunctions (functions fs) := by
  cases fs with
  | nil => trivial
  | cons f fs => exact ⟨jumps_function f h.1, jumps_functions fs h.2⟩

end

theorem jumps_iterate {p : Program} (h : p.Jumps) (n : Nat) : (program^[n] p).Jumps := by
  induction n with
  | zero => exact h
  | succ n ih =>
    rw [Function.iterate_succ_apply']
    exact jumps_block _ ih

end Passes

/-! ### Accepted programs -/

/-- However often an accepted program is simplified, all its jumps have something to jump out of. -/
theorem analyze_jumps {tree : Tree.Program} {p : Program} {st : State} (h : analyze tree = (.ok p, st))
    (n : Nat) : (program^[n] p).Jumps := by
  exact jumps_iterate (jumps_of_analyze h) n

/-! A function in a loop, each left from a branch that takes the place of its statement. -/

def leavingTree : Tree.Program :=
  [.whileLoop ⟨1, 1⟩ (.bool ⟨1, 4⟩ true)
     [.function ⟨2, 2⟩ "f" none (some (.named ⟨2, 5⟩ "bool"))
        [.ifChain ⟨3, 3⟩ (.bool ⟨3, 6⟩ true) [.ret ⟨3, 12⟩ (some (.bool ⟨3, 19⟩ false))] [] none],
      .ifChain ⟨4, 2⟩ (.bool ⟨4, 5⟩ false) [] [] (some [.brk ⟨5, 3⟩])]]

def leavingFunction (body : List Stmt) : Function :=
  .mk ⟨14, .function false, "f", .function [] .bool⟩ [] body ⟨2, 2⟩

def leavingProgram : Program where
  statements :=
    [.whileLoop (.bool true)
       [.function (leavingFunction
          [.ifElse (.bool true) [.ret (some (.bool false)) ⟨3, 12⟩] .none ⟨3, 3⟩]) ⟨2, 2⟩,
        .ifElse (.bool false) [] (.block [.brk ⟨5, 3⟩]) ⟨4, 2⟩] ⟨1, 1⟩]

theorem analyze_jumps_leaving :
    (analyze leavingTree).1 = .ok leavingProgram ∧
    program leavingProgram = ⟨[.whileLoop (.bool true)
      [.function (leavingFunction [.ret (some (.bool false)) ⟨3, 12⟩]) ⟨2, 2⟩, .brk ⟨5, 3⟩] ⟨1, 1⟩]⟩ ∧
    ∀ n, (program^[n] leavingProgram).Jumps :=
  have h : (analyze leavingTree).1 = .ok leavingProgram := by rfl
  ⟨h, by rfl, analyze_jumps (Prod.ext h rfl)⟩

end Snack.Simplify
