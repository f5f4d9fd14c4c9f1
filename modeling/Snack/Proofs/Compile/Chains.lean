import Snack.Proofs.Script.Chains
import Snack.Proofs.Script.Names
import Snack.Proofs.Simplify.Writable
import Snack.Proofs.Typing.Reached

/-! Chains of tests, from the tree over the typed program to the script. The clauses of a chain become its arms,
in their order and with their locations, and each arm of an accepted chain has its line in the script. -/

namespace Snack.Typing

open Snack.Core

/-! ### Clauses that are analysed in turn -/

/-- Each test is analysed where its clause is reached, and each body in a block of its own there. -/
inductive Analysed : State → List Tree.ElseIf → List Check.Clause → State → Prop where
  | nil {st} : Analysed st [] [] st
  | cons {st st₁ st' p cond body t b cs ds} (ht : Check.test cond st = .ok t st)
      (hb : Check.inBlock (Check.block body) st = .ok b st₁) (h : Analysed st₁ cs ds st') :
      Analysed st (.mk p cond body :: cs) (⟨t, b, p⟩ :: ds) st'

/-- The else part as it is analysed behind the clauses, if there is one. -/
inductive AnalysedElse : State → Option (List Tree.Stmt) → Option (List Stmt) → State → Prop where
  | none {st} : AnalysedElse st none none st
  | block {st st' ts b} (h : Check.inBlock (Check.block ts) st = .ok b st') : AnalysedElse st (some ts) (some b) st'

theorem arms_clauses (cs : List Check.Clause) (rest : Else) : (Check.clauses cs rest).arms = cs ++ rest.arms := by
  induction cs with
  | nil => rfl
  | cons c cs ih => exact congrArg (c :: ·) ih

theorem last_clauses (cs : List Check.Clause) (rest : Else) : (Check.clauses cs rest).last = rest.last := by
  induction cs with
  | nil => rfl
  | cons c cs ih => exact ih

section Clauses

variable {st st' : State}

theorem test_asks {cond : Tree.Expr} {t : Expr} (h : Check.test cond st = .ok t st') : st' = st := by
  obtain ⟨-, -, rfl⟩ := Check.test_ok.1 h
  rfl

theorem analysed_clauses (cs : List Tree.ElseIf) {st st' : State} {ds : List Check.Clause}
    (h : Check.elseIfClauses cs st = .ok ds st') : Analysed st cs ds st' := by
  induction cs generalizing st ds with
  | nil =>
    obtain ⟨rfl, rfl⟩ := pure_ok.1 h
    exact .nil
  | cons c cs ih =>
    obtain ⟨p, cond, body⟩ := c
    simp only [Check.elseIfClauses, bind_ok, pure_ok] at h
    obtain ⟨t, st₁, ht, b, st₂, hb, ds, st₃, hds, rfl, rfl⟩ := h
    obtain rfl := test_asks ht
    exact .cons ht hb (ih hds)

theorem Analysed.length_eq {cs : List Tree.ElseIf} {ds : List Check.Clause} (h : Analysed st cs ds st') :
    ds.length = cs.length := by
  induction h with
  | nil => rfl
  | cons _ _ _ ih => exact congrArg (· + 1) ih

theorem AnalysedElse.none_iff {elsePart : Option (List Tree.Stmt)} {last : Option (List Stmt)}
    (h : AnalysedElse st elsePart last st') : last = Option.none ↔ elsePart = Option.none := by
  cases h <;> simp

/-- The clauses of an accepted chain are the arms of one statement, the else part its last alternate. -/
theorem ifChain_ok {p : Pos} {cond : Tree.Expr} {body : List Tree.Stmt} {elseIfs : List Tree.ElseIf}
    {elsePart : Option (List Tree.Stmt)} {s : Stmt}
    (h : Check.stmt (.ifChain p cond body elseIfs elsePart) st = .ok s st') :
    ∃ t b e st₁, s = .ifElse t b e p ∧ Analysed st (.mk p cond body :: elseIfs) s.arms st₁ ∧
      AnalysedElse st₁ elsePart s.last st' := by
  cases elsePart with
  | none =>
    simp only [Check.stmt, bind_ok, pure_ok] at h
    obtain ⟨t, st₁, ht, b, st₂, hb, cs, st₃, hcs, rfl, rfl⟩ := h
    obtain rfl := test_asks ht
    refine ⟨t, b, _, st₃, rfl, ?_, ?_⟩
    · rw [Stmt.arms, arms_clauses, Else.arms, List.append_nil]
      exact .cons ht hb (analysed_clauses elseIfs hcs)
    · rw [Stmt.last, last_clauses]
      exact .none
  | some elsePart =>
    simp only [Check.stmt, bind_ok, pure_ok] at h
    obtain ⟨t, st₁, ht, b, st₂, hb, cs, st₃, hcs, rest, st₄, hrest, rfl, rfl⟩ := h
    obtain rfl := test_asks ht
    refine ⟨t, b, _, st₃, rfl, ?_, ?_⟩
    · rw [Stmt.arms, arms_clauses, Else.arms, List.append_nil]
      exact .cons ht hb (analysed_clauses elseIfs hcs)
    · rw [Stmt.last, last_clauses]
      exact .block hrest

end Clauses

/-! ### Tests that obey the rules -/

section Tests

variable {M : Nat → Members} {r : Option Ty}

theorem typed_arms_rest (e : Else) (h : WellTyped M r (.rest e)) :
    ∀ c ∈ e.arms, Typed Proper Ty.Written M c.test := by
  cases e with
  | none | block => exact List.forall_mem_nil _
  | elseIf t b e p =>
    cases h with
    | elseIf ht _ _ he => exact List.forall_mem_cons.2 ⟨ht, typed_arms_rest e he⟩

theorem typed_arms {t : Expr} {b : List Stmt} {e : Else} {p : Pos}
    (h : WellTyped M r (.stmt (.ifElse t b e p))) :
    ∀ c ∈ (Stmt.ifElse t b e p).arms, Typed Proper Ty.Written M c.test := by
  cases h with
  | ifElse ht _ _ he => exact List.forall_mem_cons.2 ⟨ht, typed_arms_rest e he⟩

end Tests

end Snack.Typing

namespace Snack.Compile

open Snack.Core Snack.Typing

/-- What the analysis accepts at a statement obeys the rules and has a script. -/
theorem written_of_reached {tree : Tree.Program} {x : Moment} {t : Tree.Stmt} {s : Stmt} {st' : State}
    (hx : x ∈ history tree) (he : x.event = .stmt t) (h : Check.stmt t x.state = .ok s st') :
    WellTyped st'.membersOf x.state.result (.stmt s) ∧
      ∀ m d σ, ∃ σ', Script.stmt m d s σ = .ok () σ' := by
  obtain ⟨hsound, hwell⟩ := (accepts_stmt t h).sound (sound_of_reached hx he) trivial
  have hs : WellTyped st'.membersOf x.state.result (.stmt s) := hwell (.refl _ st')
  refine ⟨hs, fun m d σ => ?_⟩
  have hwritable : Built Writable Proper (·.typ.Known) (.stmt s) :=
    (built_of_wellTyped hs).imp fun e he => (Simplify.writable_of_typed he fun _ _ _ => hsound.typ?_known).1
  have hemits := Script.emits_node (U := fun _ => True) (m := m) hwritable (fun _ _ _ => trivial) d σ
  cases hrun : Script.stmt m d s σ with
  | error e σ' =>
    rw [hrun] at hemits
    exact hemits.elim
  | ok u σ' => exact ⟨σ', rfl⟩

/-- An accepted chain of `n` else-if clauses is `n + 1` if statements along the alternates, which are the clauses
as they are analysed in turn, with the else part as the last alternate. Without simplification it is written at
any depth as one line for each of them in order, one for an else block that is not empty, and a brace, with
everything else indented deeper. The test in each line and the block below it are what is written there after all
that comes before. -/
theorem else_if_chain_in_order {tree : Tree.Program} {x : Moment} {p : Pos} {cond : Tree.Expr}
    {body : List Tree.Stmt} {elseIfs : List Tree.ElseIf} {elsePart : Option (List Tree.Stmt)} {s : Stmt}
    {st' : State} (hx : x ∈ history tree) (he : x.event = .stmt (.ifChain p cond body elseIfs elsePart))
    (h : Check.stmt (.ifChain p cond body elseIfs elsePart) x.state = .ok s st') :
    s.arms.length = elseIfs.length + 1 ∧
      (∃ st₁, Analysed x.state (.mk p cond body :: elseIfs) s.arms st₁ ∧ AnalysedElse st₁ elsePart s.last st') ∧
      (s.last = none ↔ elsePart = none) ∧
      ∀ (m : Script.Mangling) (d : Nat) (σ : Script.State), ∃ σ' new texts,
        Script.stmt m d s σ = .ok () σ' ∧ σ'.lines.toList = σ.lines.toList ++ new ∧
        texts.length = elseIfs.length + 1 ∧
        Script.Chain m d (Script.chainParts m d s.arms s.last) σ (Script.armHeads texts ++ Script.lastHead s.last) new
          σ' ∧
        new.filter (fun l => Script.indentation l == 2 * d) =
          (Script.armHeads texts ++ Script.lastHead s.last ++ ["\x7d"]).map (Script.indent d) := by
  obtain ⟨hwell, hwrites⟩ := written_of_reached hx he h
  obtain ⟨t, b, e, st₁, rfl, harms, hlast⟩ := ifChain_ok h
  refine ⟨harms.length_eq, ⟨st₁, harms, hlast⟩, hlast.none_iff, fun m d σ => ?_⟩
  obtain ⟨σ', hrun⟩ := hwrites m d σ
  obtain ⟨new, _, hlines, ⟨texts, rfl⟩, hchain⟩ :=
    Script.writesChain_ifElse (fun c hc => Script.silent_expr (typed_arms hwell c hc)) σ () σ' hrun
  have htexts : texts.length = elseIfs.length + 1 := hchain.length_texts.trans harms.length_eq
  exact ⟨σ', new, texts, hrun, hlines, htexts, hchain, hchain.filter_indentation Script.head_of_armHeads⟩

/-! ### A test in an else part -/

def nestedChain : Tree.Stmt :=
  .ifChain ⟨1, 1⟩ (.bool ⟨1, 3⟩ true) [.print ⟨2, 1⟩ [.bool ⟨2, 3⟩ true]]
    [.mk ⟨3, 1⟩ (.bool ⟨3, 3⟩ false) [], .mk ⟨4, 1⟩ (.unary ⟨4, 3⟩ .not (.bool ⟨4, 5⟩ true)) [.print ⟨5, 1⟩ []]]
    (some [.ifChain ⟨6, 1⟩ (.bool ⟨6, 3⟩ true) [] [] (some [])])

def nestedArms : Stmt :=
  .ifElse (.bool true) [.print [.bool true] ⟨2, 1⟩]
    (.elseIf (.bool false) [] (.elseIf (.unary .not (.bool true) .bool) [.print [] ⟨5, 1⟩]
      (.block [.ifElse (.bool true) [] (.block []) ⟨6, 1⟩]) ⟨4, 1⟩) ⟨3, 1⟩) ⟨1, 1⟩

/-- An if statement in an else block is no arm of the chain around it, and its empty else block is not written. -/
theorem else_if_chain_in_order_nested :
    (⟨.stmt nestedChain, .initial⟩ : Moment) ∈ history [nestedChain] ∧
      Check.stmt nestedChain .initial = .ok nestedArms .initial ∧ nestedArms.arms.length = 2 + 1 ∧
      nestedArms.last = some [.ifElse (.bool true) [] (.block []) ⟨6, 1⟩] ∧
      ∃ σ' new texts, Script.stmt .byEntity 1 nestedArms ⟨[], #[]⟩ = .ok () σ' ∧ σ'.lines.toList = [] ++ new ∧
        texts.length = 2 + 1 ∧
        Script.Chain .byEntity 1 (Script.chainParts .byEntity 1 nestedArms.arms nestedArms.last) ⟨[], #[]⟩
          (Script.armHeads texts ++ Script.lastHead nestedArms.last) new σ' ∧
        new.filter (fun l => Script.indentation l == 2 * 1) =
          (Script.armHeads texts ++ ["\x7d else \x7b"] ++ ["\x7d"]).map (Script.indent 1) := by
  have hmem : (⟨.stmt nestedChain, .initial⟩ : Moment) ∈ history [nestedChain] := by
    rw [history, Course.block]
    exact List.mem_append_left _ (List.mem_append_left _ (List.mem_singleton_self _))
  have hrun : Check.stmt nestedChain .initial = .ok nestedArms .initial := rfl
  obtain ⟨harms, -, -, hwrites⟩ := else_if_chain_in_order hmem rfl hrun
  exact ⟨hmem, hrun, harms, rfl, hwrites .byEntity 1 ⟨[], #[]⟩⟩

end Snack.Compile
